import PolynomialEquations.Poly.Arithmetic

/-!
# Comparing polynomials

Exact equality looks at values only: symbols and kinds do not matter, and the zero polynomial
equals every other zero polynomial. Approximate equality bounds the 2-norm of the difference.
-/

namespace PolynomialEquations

namespace Poly

variable {R K : Type} [Zero K] [BEq K]

/-- Whether two polynomials have the same coefficients. -/
def equal (a b : Poly K) : Bool :=
  if a.isZero || b.isZero then a.isZero && b.isZero
  else a.first == b.first && a.coef == b.coef

/-- Whether the 2-norm of the difference is at most `atol` plus `rtol` times the larger of the two
2-norms. -/
def isApprox [Scalar R K] [RealFunctions R] [Zero R] [Add R] [Mul R] [LE R] [DecidableLE R] [LT R]
    [DecidableLT R] [Add K] [Neg K] (a b : Poly K) (rtol atol : R) : Bool :=
  let difference := euclideanNorm (a - b).coef
  let na := euclideanNorm a.coef
  let nb := euclideanNorm b.coef
  decide (difference ≤ atol + rtol * (if na < nb then nb else na))

end Poly

end PolynomialEquations
