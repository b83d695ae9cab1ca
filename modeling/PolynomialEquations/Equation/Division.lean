import PolynomialEquations.Journal.Basic
import PolynomialEquations.Matrix.Structured
import PolynomialEquations.Matrix.Reflection
import PolynomialEquations.Matrix.Triangular
import PolynomialEquations.Poly.Arithmetic

/-!
# Exact division

The equation `a x = b` for one polynomial `x`. The banded matrix of `a` is factored orthogonally;
what the transformed right side has beyond the columns of the matrix is the part of `b` that no
multiple of `a` reaches, and the quotient is read off the triangular factor.
-/

namespace PolynomialEquations

variable {R K : Type} [Zero K] [One K] [Add K] [Sub K] [Mul K] [Div K] [BEq K] [Scalar R K]
  [Zero R] [Add R] [Mul R] [BEq R] [LE R] [DecidableLE R] [LT R] [DecidableLT R]
  [RealFunctions R] [OfScientific R]

/-- The largest modulus among the entries of `v` from position `n` on. -/
def tailNorm (v : Array K) (n : Nat) : R := maximumNorm (v.extract n v.size)

/-- The quotient of degree `dx` of `b` by `a`, or nothing if the part of `b` out of reach has an
entry of modulus at least `tol`. -/
def quotientOfDegree (a b : Poly K) (dx : Nat) (tol : R) : Traced R (Option (Poly K)) := do
  let A := toeplitz a (dx + 1)
  if A.rows ≠ b.coef.size then Traced.fail .unusable
  else
    let F := householderQR A .complete
    let y := F.q.adjoint.mulVec b.coef
    let residual := tailNorm y (dx + 1)
    if tol ≤ residual then
      Traced.note (.inexactDivision residual tol)
      return none
    else
      let x ← Traced.ofExcept
        (backSubstituteVector (F.r.topRows (dx + 1)) (y.extract 0 (dx + 1)))
      return some (Poly.ofCoef x a.symbol)

/-- The polynomial `x` with `a x = b`, or nothing if `a` does not divide `b` up to `tol`. -/
def exactQuotient (a b : Poly K) (tol : R) : Traced R (Option (Poly K)) := do
  if a.isZero then Traced.fail .zeroDivisor
  else if b.isZero then return some (Poly.constant 0 a.symbol)
  else
    let dx := b.degree - a.degree
    if dx < 0 then
      Traced.note (.noQuotient b.degree a.degree)
      return none
    else quotientOfDegree a b dx.toNat tol

end PolynomialEquations
