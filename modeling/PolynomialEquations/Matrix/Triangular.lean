import PolynomialEquations.Matrix.Basic

/-!
# Triangular systems

Back substitution from the last row up. A pivot that is negligible relative to the row sum norm of
the matrix ends it: the system then has no solution if a right side in that row is larger, and
more than one otherwise.
-/

namespace PolynomialEquations

variable {R K : Type} [Zero K] [Add K] [Sub K] [Mul K] [Div K]

/-- The value of row `i` of the unknown for a right side with `k` columns, given the rows below
it. -/
def substituteRow (U C : Mat K) (i : Nat) (below : List (Array K)) : Array K :=
  let pivot := U.get i i
  Array.ofFn fun c : Fin C.cols =>
    (C.get i c - sumTo (fun t => U.get i (i + 1 + t) * (below.getD t #[]).getD c 0) below.length)
      / pivot

variable [Scalar R K] [LE R] [DecidableLE R] [LT R] [DecidableLT R]

/-- The rows of the unknown from the first on, given the rows from `n` on. -/
def substituteRows (U C : Mat K) (tol : R) : Nat → List (Array K) → Except Failure (List (Array K))
  | 0, below => .ok below
  | i + 1, below =>
    if U.rows ≤ i ∨ U.cols ≤ i then .error .outOfBounds
    else if Scalar.modulus (U.get i i) ≤ tol then
      if (List.range C.cols).any fun c => decide (tol < Scalar.modulus (C.get i c)) then
        .error .inconsistent
      else .error .rankDeficient
    else if U.cols ≠ i + 1 + below.length then .error .unusable
    else substituteRows U C tol i (substituteRow U C i below :: below)

/-- The solution `X` of `U X = C` for an upper triangular matrix `U`. -/
def backSubstitute [Zero R] [Add R] [Mul R] [OfScientific R] (U C : Mat K) :
    Except Failure (Mat K) := do
  let rows ← substituteRows U C U.tolerance C.rows []
  return Mat.ofFn C.rows C.cols fun i c => (rows.getD i #[]).getD c 0

/-- The solution `x` of `U x = c` for an upper triangular matrix `U` and a vector `c`. -/
def backSubstituteVector [Zero R] [Add R] [Mul R] [OfScientific R] (U : Mat K) (c : Array K) :
    Except Failure (Array K) := do
  let x ← backSubstitute U (Mat.ofColumn c)
  return x.col 0

end PolynomialEquations
