import PolynomialEquations.Poly.Comparison
import PolynomialEquations.Poly.Roots

/-!
# Polynomials over the real or the complex numbers

A polynomial whose coefficients are real, or complex even where all imaginary parts vanish. An
operation on two such polynomials is carried out over the complex numbers as soon as one is
complex.
-/

namespace PolynomialEquations

/-- A polynomial with real or with complex coefficients. -/
inductive MixedPoly (R C : Type) where
  /-- A polynomial over the real numbers. -/
  | real (p : Poly R)
  /-- A polynomial over the complex numbers. -/
  | complex (p : Poly C)

/-- A polynomial with its coefficients read as other scalars. -/
def Poly.map {K L : Type} (f : K → L) : Poly K → Poly L
  | .ordinary c s => .ordinary (c.map f) s
  | .laurent first c s => .laurent first (c.map f) s

namespace MixedPoly

variable {R C α : Type}

/-- The polynomial over the complex numbers. -/
def toComplex [Scalar R C] : MixedPoly R C → Poly C
  | real p => p.map Scalar.ofReal
  | complex p => p

/-- Ask a question about a polynomial. -/
def ask (onReal : Poly R → α) (onComplex : Poly C → α) : MixedPoly R C → α
  | real p => onReal p
  | complex p => onComplex p

/-- Ask a question about two polynomials over common scalars. -/
def ask₂ [Scalar R C] (onReal : Poly R → Poly R → α) (onComplex : Poly C → Poly C → α) :
    MixedPoly R C → MixedPoly R C → α
  | real p, real q => onReal p q
  | a, b => onComplex a.toComplex b.toComplex

/-- Change a polynomial. -/
def map (onReal : Poly R → Poly R) (onComplex : Poly C → Poly C) (a : MixedPoly R C) :
    MixedPoly R C :=
  a.ask (real ∘ onReal) (complex ∘ onComplex)

/-- Combine two polynomials over common scalars. -/
def map₂ [Scalar R C] (onReal : Poly R → Poly R → Poly R) (onComplex : Poly C → Poly C → Poly C)
    (a b : MixedPoly R C) : MixedPoly R C :=
  ask₂ (fun p q => real (onReal p q)) (fun p q => complex (onComplex p q)) a b

/-- Whether the coefficients are complex. -/
def isComplex : MixedPoly R C → Bool
  | real _ => false
  | complex _ => true

/-- The kind of a polynomial. -/
def variant (a : MixedPoly R C) : Variant := a.ask Poly.variant Poly.variant

/-- The exponent of the first stored coefficient. -/
def first (a : MixedPoly R C) : Int := a.ask Poly.first Poly.first

/-- The exponent of the last stored coefficient. -/
def last (a : MixedPoly R C) : Int := a.ask Poly.last Poly.last

/-- The name of the variable. -/
def symbol (a : MixedPoly R C) : String := a.ask Poly.symbol Poly.symbol

variable [Zero R] [BEq R] [Zero C] [BEq C]

/-- Whether every coefficient is zero. -/
def isZero (a : MixedPoly R C) : Bool := a.ask Poly.isZero Poly.isZero

/-- The highest exponent with a non-zero coefficient, and `-1` for the zero polynomial. -/
def degree (a : MixedPoly R C) : Int := a.ask Poly.degree Poly.degree

/-- The zero polynomial over the real numbers. -/
def zero (symbol : String) : MixedPoly R C := real (Poly.constant 0 symbol)

/-- The ordinary polynomial of the real parts of the coefficients; a real polynomial stays as it
is. -/
def realPart [Scalar R C] : MixedPoly R C → Poly R
  | real p => p
  | complex p => Poly.ofCoef (p.coef.map Scalar.re) p.symbol

/-- The product with a real number. -/
def scaleBy [Scalar R C] [Add R] [Mul R] [Add C] [Mul C] (a : MixedPoly R C) (t : R) :
    MixedPoly R C :=
  a.map (·.scalarMul t) (·.scalarMul (Scalar.ofReal t))

end MixedPoly

/-- The monic polynomial with the given complex roots. Its coefficients are real when all their
imaginary parts are below a thousand machine epsilons. -/
def polyOfRoots {R C : Type} [Zero R] [One R] [BEq R] [LE R] [DecidableLE R] [LT R]
    [DecidableLT R] [Scalar R R] [OfScientific R] [Zero C] [One C] [Neg C] [Add C] [Mul C]
    [BEq C] [Scalar R C] (roots : List C) (symbol : String) : MixedPoly R C :=
  match roots with
  | [] => .real (Poly.ofCoef #[1] symbol)
  | _ =>
    let c := coefOfRoots roots
    let small (z : C) : Bool :=
      decide (Scalar.modulus (Scalar.im z) < (2.220446049250313e-13 : R))
    if c.all small then .real (Poly.ofCoef (c.map Scalar.re) symbol)
    else .complex (Poly.ofCoef c symbol)

end PolynomialEquations
