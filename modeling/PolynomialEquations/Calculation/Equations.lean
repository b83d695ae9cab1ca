import PolynomialEquations.Mixed.Transform
import PolynomialEquations.Value.Reading
import PolynomialEquations.Value.Text
import PolynomialEquations.Kernel.Floating
import PolynomialEquations.Equation.Division
import PolynomialEquations.Equation.Homogeneous
import PolynomialEquations.Equation.Symmetric
import PolynomialEquations.Equation.LeastSum
import PolynomialEquations.Equation.Spectral

/-!
# Equations on values

The solvers for operands of any kind. An equation is solved over the complex numbers as soon as one
of its polynomials is complex. A zero polynomial that is given out without a computation is real in
any case, and polynomials handed through stay as they are.
-/

namespace PolynomialEquations

namespace FloatPoly

/-- The polynomial `x` with `a x = b`, if there is one. -/
def exactQuotient (a b : FloatPoly) (tol : Float) : Traced Float (Option FloatPoly) :=
  match a, b with
  | .real p, .real q => do
    let x ← PolynomialEquations.exactQuotient p q tol
    return x.map .real
  | a, b => do
    let x ← PolynomialEquations.exactQuotient a.toComplex b.toComplex tol
    return x.map fun x => if b.isZero then MixedPoly.zero x.symbol else .complex x

/-- The solution of `a x + b y = 0` with `y` of least degree. -/
def homogeneousPair (a b : FloatPoly) : Traced Float (FloatPoly × FloatPoly) :=
  match a, b with
  | .real p, .real q => do
    let (x, y) ← PolynomialEquations.homogeneousPair realKernels p q
    return (.real x, .real y)
  | a, b => do
    let (x, y) ← PolynomialEquations.homogeneousPair complexKernels a.toComplex b.toComplex
    -- The pair `(-b, a)`, whose `y` alone has the degree of `a`, is handed through.
    return if a.degree ≤ y.degree then (b.map Poly.neg Poly.neg, a) else (.complex x, .complex y)

/-- The answer of a solver that looks at its threshold only after an attempt without it: a threshold
that is no number is noticed once the attempt has got through. -/
def withThreshold {α β : Type} (threshold : Except Failure Float) (solve : Float → Traced Float α)
    (attempt : Traced Float β) : Traced Float α :=
  match threshold with
  | .ok t => solve t
  | .error e => do
    let _ ← attempt
    Traced.fail e

section Pairs

variable {K : Type} [Zero K] [One K] [Add K] [Neg K] [Mul K] [BEq K] [Scalar Float K]
  (kernels : LinearKernels K) (pack : Poly K → FloatPoly)

/-- The unknowns of a system as polynomials of their kinds. An unknown without coefficients is the
zero polynomial. -/
def packPair (size : SystemSize) (pair : Poly K × Poly K) : FloatPoly × FloatPoly :=
  let wrap (degree : Int) (x : Poly K) : FloatPoly :=
    if degree < 0 then MixedPoly.zero x.symbol else pack x
  (wrap size.degreeX pair.1, wrap size.degreeY pair.2)

/-- The solution of `a x + b y = c` over one kind of scalars. -/
def diophantineOver (a b c : Poly K) (policy : DegreePolicy) (tol : Except Failure Float) :
    Traced Float (Option (FloatPoly × FloatPoly)) := do
  let found ← withThreshold tol (PolynomialEquations.diophantinePair kernels a b c policy)
    (candidatePair kernels a b c policy)
  return found.map (packPair pack (policy.size a.degree b.degree c.degree))

/-- The solution of `ã x + b̃ y = c + d̃` over one kind of scalars. -/
def symmetricOver (a b c d : Poly K) (policy : DegreePolicy) (tol : Except Failure Float) :
    Traced Float (Option (FloatPoly × FloatPoly)) := do
  let found ← withThreshold tol (PolynomialEquations.symmetricPair kernels a b c d policy)
    (candidatePair kernels a.axisConj b.axisConj (c + d.axisConj) policy)
  return found.map
    (packPair pack (policy.size a.axisConj.degree b.axisConj.degree (c + d.axisConj).degree))

end Pairs

/-- The solution of `a x + b y = c`, if one passes the check. -/
def diophantinePair (a b c : FloatPoly) (policy : DegreePolicy) (tol : Except Failure Float) :
    Traced Float (Option (FloatPoly × FloatPoly)) :=
  match a, b, c with
  | .real p, .real q, .real r => diophantineOver realKernels .real p q r policy tol
  | a, b, c =>
    diophantineOver complexKernels .complex a.toComplex b.toComplex c.toComplex policy tol

/-- The solution of `ã x + b̃ y = c + d̃`, if one passes the check. Polynomials of different kinds
are conjugated over their own scalars first. -/
def symmetricPair (a b c d : FloatPoly) (policy : DegreePolicy) (tol : Except Failure Float) :
    Traced Float (Option (FloatPoly × FloatPoly)) :=
  match a, b, c, d with
  | .real p, .real q, .real r, .real s => symmetricOver realKernels .real p q r s policy tol
  | .complex p, .complex q, .complex r, .complex s =>
    symmetricOver complexKernels .complex p q r s policy tol
  | a, b, c, d =>
    diophantinePair a.axisConj b.axisConj (c.map₂ Poly.add Poly.add d.axisConj) policy tol

/-- The solution of `ã x + a x̃ = b + b̃` in the least squares sense. -/
def symmetricUnknown (a b : FloatPoly) : Except Failure FloatPoly :=
  match a, b with
  | .real p, .real q => (PolynomialEquations.symmetricUnknown realKernels p q).map .real
  | a, b => do
    let p := a.toComplex
    let q := b.toComplex
    let x ← PolynomialEquations.symmetricUnknown complexKernels p q
    return if (q + q.axisConj).isZero then MixedPoly.zero x.symbol else .complex x

/-- The stable spectral factor. -/
def stableFactor (a : FloatPoly) : Traced Float FloatPoly :=
  match a with
  | .real p => do
    let x ← realStableFactor realRoots p
    return .real x
  | .complex p => PolynomialEquations.stableFactor complexRoots p

end FloatPoly

namespace Value

/-- Two unknowns as a value, both missing if there is no solution. -/
def ofPair : Option (FloatPoly × FloatPoly) → Value
  | some (x, y) => tuple [poly x, poly y]
  | Option.none => tuple [none, none]

/-- The degree policy that a value names; without one the degree of `y` is kept low. -/
def toPolicy : Option Value → Except Failure DegreePolicy
  | Option.none | some (text "miny") => .ok .minY
  | some (text "minx") => .ok .minX
  | some v => .error (.unknownPolicy v.shown)

/-- The quotient `x` with `a x = b`. The tolerance, which has a default, is looked at unless the
degrees alone decide. -/
def quotient (a b : Value) (tol : Option Value) : Traced Float Value := do
  let p ← a.toPolynomial
  let q ← b.toPolynomial
  let t ←
    if p.isZero || q.isZero || q.degree < p.degree then pure 0
    else (tol.getD (real (divisionTolerance Float))).toReal
  let x ← p.exactQuotient q t
  return match x with
    | some x => poly x
    | Option.none => none

/-- The solution of `a x + b y = 0` with `y` of least degree. -/
def homogeneousPair (a b : Value) : Traced Float Value := do
  let p ← a.toPolynomial
  let q ← b.toPolynomial
  let (x, y) ← p.homogeneousPair q
  return tuple [poly x, poly y]

/-- The solution of `a x + b y = c` under a degree policy and a tolerance, which have defaults. -/
def diophantinePair (a b c : Value) (policy tol : Option Value) : Traced Float Value := do
  let rule ← toPolicy policy
  let p ← a.toPolynomial
  let q ← b.toPolynomial
  let r ← c.toPolynomial
  let pair ← p.diophantinePair q r rule (tol.getD (real (residualTolerance Float))).toReal
  return ofPair pair

/-- The solution of `ã x + a x̃ = b + b̃` in the least squares sense. -/
def symmetricUnknown (a b : Value) : Traced Float Value := do
  let q ← b.toPolynomial
  let p ← a.toPolynomial
  let x ← p.symmetricUnknown q
  return poly x

/-- The solution of `ã x + b̃ y = c + d̃`, under the rules of the Diophantine equation. -/
def symmetricPair (a b c d : Value) (policy tol : Option Value) : Traced Float Value := do
  let p ← a.toPolynomial
  let q ← b.toPolynomial
  let s ← d.toPolynomial
  let r ← c.toPolynomial
  let rule ← toPolicy policy
  let pair ← p.symmetricPair q r s rule (tol.getD (real (residualTolerance Float))).toReal
  return ofPair pair

/-- The largest admissible degree that a value stands for, which must not be below the least
one. -/
def toBound (bound : Value) (least : Int) : Except Failure Int := do
  match bound with
  | real x => throw (if x < Float.ofInt least then .boundTooLow bound.shown least else .wrongKind)
  | truth _ | integer _ =>
    let n ← bound.toInteger
    if n < least then throw (.boundTooLow bound.shown least) else return n
  | _ => throw .wrongKind

/-- The solution `(x, y)` of `a x + y = c` with `y` of least absolute sum, and that sum. The bound
on the degree of `y` and the improvement that ends the search have defaults. -/
def leastSum (a c : Value) (bound improvement : Option Value) :
    Traced Float (FloatPoly × FloatPoly × Float) := do
  let p ← a.toPolynomial
  let q ← c.toPolynomial
  match p, q with
  | .real p, .real q =>
    if p.isZero then Traced.fail .zeroGenerator
    else
      let least := leastDegree p q
      let n ← (bound.getD (integer 100)).toBound least
      FloatPoly.withThreshold (improvement.getD (real 1e-4)).toReal
        (fun emax => do
          let (x, y, value) ← PolynomialEquations.leastSumPair floatingPrograms p q n emax
          return (.real x, .real y, value))
        (do
          let b ← PolynomialEquations.padTo q.coef (least + 1)
          solveDegree floatingPrograms p p.degree least b)
  | _, _ => Traced.fail .notReal

/-- The least absolute sum with its polynomials. -/
def leastSumPair (a c : Value) (bound improvement : Option Value) : Traced Float Value := do
  let (x, y, value) ← leastSum a c bound improvement
  return tuple [poly x, poly y, real value]

/-- The least absolute sum alone. -/
def leastSumValue (a c : Value) (bound improvement : Option Value) : Traced Float Value := do
  let (_, _, value) ← leastSum a c bound improvement
  return real value

/-- The stable spectral factor by the method that a value names. -/
def stableFactor (a : Value) (method : Option Value) : Traced Float Value := do
  match method with
  | Option.none | some (text "roots") =>
    let p ← a.toPolynomial
    let x ← p.stableFactor
    return poly x
  | some v => Traced.fail (.unknownMethod v.shown)

end Value

end PolynomialEquations
