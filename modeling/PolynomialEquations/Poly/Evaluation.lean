import PolynomialEquations.Poly.Basic
import PolynomialEquations.Scalar.Basic

/-!
# Values of polynomials

Evaluation by nested multiplication, highest coefficient first.
-/

namespace PolynomialEquations

namespace Poly

variable {R K : Type} [Zero K] [Add K] [Mul K]

/-- The nested form `c 0 + (c 1 + (c 2 + ...) * x) * x` with the highest coefficient increased
by `x * 0`, which passes on an `x` that is not finite. -/
def nested (c : Array K) (x : K) : K :=
  let top := c.getD (c.size - 1) 0 + x * 0
  (c.extract 0 (c.size - 1)).foldr (fun a v => a + v * x) top

/-- The value at `x`. A window that does not start at exponent zero contributes a power of `x`. -/
def eval [Scalar R K] (a : Poly K) (x : K) : K :=
  let v := nested a.coef x
  if a.first = 0 then v else v * Scalar.power x a.first

end Poly

end PolynomialEquations
