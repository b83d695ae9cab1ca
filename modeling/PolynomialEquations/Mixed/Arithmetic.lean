import PolynomialEquations.Mixed.Basic

/-!
# Arithmetic over the real and the complex numbers

Sums, differences, products and quotients of polynomials whose coefficients may be real or complex,
and of a polynomial and a number, and their comparison. A number beside a polynomial counts as the
constant polynomial in the same variable, and a number on the left is moved to the right.
-/

namespace PolynomialEquations

/-- A real or a complex number. -/
inductive MixedScalar (R C : Type) where
  /-- A real number. -/
  | real (t : R)
  /-- A complex number. -/
  | complex (z : C)

/-- The complex number. -/
def MixedScalar.toComplex {R C : Type} [Scalar R C] : MixedScalar R C → C
  | real t => Scalar.ofReal t
  | complex z => z

/-- The real part. -/
def MixedScalar.re {R C : Type} [Scalar R C] : MixedScalar R C → R
  | real t => t
  | complex z => Scalar.re z

namespace MixedPoly

variable {R C : Type} [Zero R] [BEq R] [Zero C] [BEq C] [Scalar R C]

/-- The constant polynomial. -/
def constant (symbol : String) : MixedScalar R C → MixedPoly R C
  | .real t => real (Poly.constant t symbol)
  | .complex z => complex (Poly.constant z symbol)

/-- The negative. -/
def neg? [Neg R] [Neg C] : MixedPoly R C → Except Failure (MixedPoly R C)
  | real p => p.neg?.map real
  | complex p => p.neg?.map complex

/-- The sum. -/
def add? [Add R] [Add C] (a b : MixedPoly R C) : Except Failure (MixedPoly R C) :=
  ask₂ (fun p q => (p.add? q).map real) (fun p q => (p.add? q).map complex) a b

/-- The difference, which is the sum with the negative. -/
def sub? [Add R] [Neg R] [Add C] [Neg C] (a b : MixedPoly R C) :
    Except Failure (MixedPoly R C) := do
  let n ← b.neg?
  a.add? n

/-- The product. -/
def mul? [Add R] [Mul R] [Add C] [Mul C] (a b : MixedPoly R C) :
    Except Failure (MixedPoly R C) :=
  ask₂ (fun p q => (p.mul? q).map real) (fun p q => (p.mul? q).map complex) a b

/-- The sum with a number on either side. -/
def addNumber? [Add R] [Add C] (a : MixedPoly R C) (t : MixedScalar R C) :
    Except Failure (MixedPoly R C) :=
  a.add? (constant a.symbol t)

/-- The polynomial less a number. -/
def subNumber? [Add R] [Neg R] [Add C] [Neg C] (a : MixedPoly R C) (t : MixedScalar R C) :
    Except Failure (MixedPoly R C) :=
  a.sub? (constant a.symbol t)

/-- A number less the polynomial: the sum of the negative and the number. -/
def numberSub? [Add R] [Neg R] [Add C] [Neg C] (t : MixedScalar R C) (a : MixedPoly R C) :
    Except Failure (MixedPoly R C) := do
  let n ← a.neg?
  n.addNumber? t

/-- The product with a number on either side. -/
def mulNumber? [Add R] [Mul R] [Add C] [Mul C] (a : MixedPoly R C) (t : MixedScalar R C) :
    Except Failure (MixedPoly R C) :=
  a.mul? (constant a.symbol t)

/-- The quotient by a number. -/
def divNumber? [Div R] [Div C] : MixedPoly R C → MixedScalar R C → Except Failure (MixedPoly R C)
  | real p, .real t => (p.divScalar? t).map real
  | a, t => (a.toComplex.divScalar? t.toComplex).map complex

/-- Whether two polynomials have the same coefficients. -/
def equal (a b : MixedPoly R C) : Bool := a.ask₂ Poly.equal Poly.equal b

/-- Whether the coefficients of two polynomials agree up to a relative and an absolute tolerance. -/
def isApprox [Scalar R R] [RealFunctions R] [Add R] [Neg R] [Mul R] [LE R] [DecidableLE R] [LT R]
    [DecidableLT R] [Add C] [Neg C] (a b : MixedPoly R C) (rtol atol : R) : Bool :=
  a.ask₂ (fun p q => p.isApprox q rtol atol) (fun p q => p.isApprox q rtol atol) b

end MixedPoly

end PolynomialEquations
