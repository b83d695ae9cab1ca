import PolynomialEquations.Poly.Arithmetic

/-!
# Transformations of polynomials

Scaling the variable, conjugation across the imaginary axis and across the unit circle, the
reciprocal, and shifts by a power of the variable. All work on the coefficients alone.
-/

namespace PolynomialEquations

namespace Poly

variable {R K : Type} [Zero K] [BEq K]

/-- The polynomial whose coefficient at exponent `k` is `f k` of the coefficient of `a`. -/
def mapWithExponent (f : Int → K → K) (a : Poly K) : Poly K :=
  assemble a.variant a.first (a.coef.mapIdx fun i x => f (a.first + i) x) a.symbol

/-- The variable replaced by its `ρ`-fold: the coefficient at exponent `k` times `ρ ^ k`. -/
def scale [Scalar R K] [Mul K] (ρ : K) (a : Poly K) : Poly K :=
  a.mapWithExponent fun k x => x * Scalar.power ρ k

/-- The conjugate across the imaginary axis, whose value at `s` is the conjugate of the value of
`a` at minus the conjugate of `s`: coefficients are conjugated, and negated at odd exponents. -/
def axisConj [Scalar R K] [Neg K] (a : Poly K) : Poly K :=
  a.conj.mapWithExponent fun k x => if k % 2 = 1 then -x else x

/-- The conjugate across the unit circle, whose value at `z` is the conjugate of the value of `a`
at the inverse of the conjugate of `z`: coefficients are conjugated and reversed, and the window
from `m` to `n` becomes the window from `-n` to `-m`. -/
def circleConj [Scalar R K] (a : Poly K) : Poly K :=
  let b := a.toLaurent
  ofWindow (-b.last) b.conj.coef.reverse b.symbol

/-- The conjugated coefficients of an ordinary polynomial in reverse order. A zero constant term
lowers the degree of the result. -/
def reciprocal [Scalar R K] (a : Poly K) : Except Failure (Poly K) :=
  match a with
  | .laurent .. => .error .laurentReciprocal
  | .ordinary .. => .ok (ofCoef a.conj.coef.reverse a.symbol)

/-- The product with the `k`-th power of the variable, as a Laurent polynomial. -/
def shift (k : Int) (a : Poly K) : Poly K :=
  let b := a.toLaurent
  ofWindow (b.first + k) b.coef b.symbol

end Poly

end PolynomialEquations
