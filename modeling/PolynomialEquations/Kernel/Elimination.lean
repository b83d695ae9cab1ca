import PolynomialEquations.Kernel.Basic

/-!
# Elimination with partial pivoting

Square systems are brought to triangular form column by column, each time with the row of the
largest pivot on top. Only a pivot that is exactly zero ends the elimination.
-/

namespace PolynomialEquations

variable {R K : Type} [Zero K] [Add K] [Sub K] [Mul K] [Div K] [BEq K]

/-- The size by which pivots are compared: the sum of the absolute values of both parts. -/
def pivotSize [Scalar R K] [Zero R] [Neg R] [Add R] [LT R] [DecidableLT R] (x : K) : R :=
  let size (t : R) : R := if t < 0 then -t else t
  size (Scalar.re x) + size (Scalar.im x)

/-- The position from `i` on, among `n` further rows, of the row with the largest entry in
column `j`, when the best so far is in row `best`. -/
def pivotRow [Scalar R K] [Zero R] [Neg R] [Add R] [LT R] [DecidableLT R]
    (rows : Array (Array K)) (j best i : Nat) : Nat → Nat
  | 0 => best
  | n + 1 =>
    let size (r : Nat) : R := pivotSize ((rows.getD r #[]).getD j 0)
    pivotRow rows j (if size best < size i then i else best) (i + 1) n

/-- Row `r` less the multiple of row `p` that clears its entry in column `j`. -/
def clearEntry (p : Array K) (j : Nat) (r : Array K) : Array K :=
  let factor := r.getD j 0 / p.getD j 0
  r.mapIdx fun c x => if c ≤ j then (if c = j then 0 else x) else x - factor * p.getD c 0

/-- The rows in triangular form from column `j` on, when `n` columns are left. -/
def triangularize [Scalar R K] [Zero R] [Neg R] [Add R] [LT R] [DecidableLT R]
    (rows : Array (Array K)) (j : Nat) : Nat → Except SolveObstacle (Array (Array K))
  | 0 => .ok rows
  | n + 1 =>
    let p := pivotRow rows j j (j + 1) n
    let rows := rows.swapIfInBounds j p
    let pivot := rows.getD j #[]
    if pivot.getD j 0 == 0 then .error .singular
    else
      triangularize (rows.mapIdx fun i r => if i ≤ j then r else clearEntry pivot j r) (j + 1) n

/-- The unknowns from the first on, given those from `n` on, for triangular rows with the right
side in their last column. -/
def substituteUpward (rows : Array (Array K)) (size : Nat) : Nat → List K → List K
  | 0, below => below
  | i + 1, below =>
    let row := rows.getD i #[]
    let x := (row.getD size 0 -
      sumTo (fun t => row.getD (i + 1 + t) 0 * below.getD t 0) below.length) / row.getD i 0
    substituteUpward rows size i (x :: below)

/-- The solution of the square system `A x = b`. -/
def eliminate [Scalar R K] [Zero R] [Neg R] [Add R] [LT R] [DecidableLT R]
    (A : Mat K) (b : Array K) : Except SolveObstacle (Array K) :=
  if A.rows ≠ A.cols then .error .notSquare
  else
    let n := A.rows
    let rows := Array.ofFn fun i : Fin n =>
      Array.ofFn fun j : Fin (n + 1) => if j < n then A.get i j else b.getD i 0
    match triangularize rows 0 n with
    | .error e => .error e
    | .ok rows => .ok (substituteUpward rows n n []).toArray

end PolynomialEquations
