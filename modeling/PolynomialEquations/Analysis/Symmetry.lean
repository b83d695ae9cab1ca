import PolynomialEquations.Poly.Comparison
import PolynomialEquations.Poly.Transform

/-!
# Conjugate symmetry

An ordinary polynomial is symmetric when it equals its conjugate across the imaginary axis, a
Laurent polynomial when it equals its conjugate across the unit circle.
-/

namespace PolynomialEquations

variable {R K : Type} [Zero K] [BEq K] [Add K] [Neg K] [Scalar R K]

/-- The conjugate that belongs to the kind of polynomial. -/
def Poly.symmetryConj (a : Poly K) : Poly K :=
  match a.variant with
  | .ordinary => a.axisConj
  | .laurent => a.circleConj

/-- Whether `a` equals its conjugate: exactly for a tolerance that is not positive, otherwise up to
that absolute tolerance in the 2-norm. -/
def isConjSymmetric [Zero R] [Add R] [Mul R] [LE R] [DecidableLE R] [LT R] [DecidableLT R]
    [RealFunctions R] (a : Poly K) (tol : R) : Bool :=
  let b := a.symmetryConj
  if 0 < tol then a.isApprox b 0 tol else a.equal b

end PolynomialEquations
