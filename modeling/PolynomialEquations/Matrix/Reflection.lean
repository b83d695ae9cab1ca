import PolynomialEquations.Matrix.Basic

/-!
# Orthogonal factorisation by reflections

A matrix `A` is written as `Q R` with `Q` unitary and `R` zero below its diagonal. Column after
column is mapped onto a multiple of a unit vector by a reflection `1 - 2 w wᴴ` with a unit vector
`w`; a column that is already negligible at and below the diagonal is left alone.
-/

namespace PolynomialEquations

variable {R K : Type} [Zero K] [One K] [Add K] [Sub K] [Mul K] [Div K] [BEq K]

/-- How much of the factorisation is wanted. -/
inductive Factors where
  /-- A square `Q`, and `R` of the shape of the matrix. -/
  | complete
  /-- Only the columns of `Q` and rows of `R` that the product needs. -/
  | reduced
  deriving Repr, DecidableEq

/-- The two factors of a matrix. -/
structure QR (K : Type) where
  /-- The factor with orthonormal columns. -/
  q : Mat K
  /-- The factor that is zero below the diagonal. -/
  r : Mat K

section Reflector

variable [Scalar R K] [Zero R] [Add R] [Mul R] [RealFunctions R]

/-- The unit vector `w` whose reflection maps `x` onto a multiple of the first unit vector. Its
first entry moves away from zero, by the norm of `x` in the direction of the entry itself. -/
def reflector (x : Array K) : Array K :=
  let x₀ := x.getD 0 0
  let phase := if x₀ == 0 then 1 else x₀ / Scalar.ofReal (Scalar.modulus x₀)
  let w := x.modify 0 (· + phase * Scalar.ofReal (euclideanNorm x))
  let size : K := Scalar.ofReal (euclideanNorm w)
  w.map (· / size)

/-- The rows from `j` on reflected: `A - 2 w (wᴴ A)`. -/
def reflectRows (w : Array K) (j : Nat) (A : Mat K) : Mat K :=
  let dots := Array.ofFn fun c : Fin A.cols =>
    sumTo (fun i => Scalar.conj (w.getD i 0) * A.get (j + i) c) (A.rows - j)
  Mat.ofFn A.rows A.cols fun i c =>
    if i < j then A.get i c
    else A.get i c - (w.getD (i - j) 0 + w.getD (i - j) 0) * dots.getD c 0

/-- The columns from `j` on reflected: `A - 2 (A w) wᴴ`. -/
def reflectCols (w : Array K) (j : Nat) (A : Mat K) : Mat K :=
  let dots := Array.ofFn fun i : Fin A.rows =>
    sumTo (fun c => A.get i (j + c) * w.getD c 0) (A.cols - j)
  Mat.ofFn A.rows A.cols fun i c =>
    if c < j then A.get i c
    else A.get i c - (dots.getD i 0 + dots.getD i 0) * Scalar.conj (w.getD (c - j) 0)

end Reflector

variable [Scalar R K] [Zero R] [Add R] [Mul R] [RealFunctions R] [BEq R] [LE R] [DecidableLE R]

/-- The part of column `j` at and below the diagonal. -/
def belowDiagonal (A : Mat K) (j : Nat) : Array K :=
  Array.ofFn fun i : Fin (A.rows - j) => A.get (j + i) j

/-- One step of the factorisation: reflect column `j`, unless its part at and below the diagonal
has norm zero or at most `tol`. -/
def factorStep (tol : R) (F : QR K) (j : Nat) : QR K :=
  let x := belowDiagonal F.r j
  let norm := euclideanNorm x
  if norm == 0 || decide (norm ≤ tol) then F
  else
    let w := reflector x
    ⟨reflectCols w j F.q, reflectRows w j F.r⟩

/-- The factorisation before the entries below the diagonal are cleared. -/
def factorSteps [OfScientific R] (A : Mat K) : QR K :=
  let tol := if A.rows * A.cols = 0 then 0 else negligible R * A.frobeniusNorm
  (List.range (min A.rows A.cols)).foldl (factorStep tol) ⟨Mat.identity A.rows, A⟩

/-- The orthogonal factorisation of a matrix. -/
def householderQR [OfScientific R] (A : Mat K) (wanted : Factors) : QR K :=
  let F := factorSteps A
  let r := Mat.ofFn A.rows A.cols fun i j => if j < i then 0 else F.r.get i j
  match wanted with
  | .complete => ⟨F.q, r⟩
  | .reduced =>
    let k := min A.rows A.cols
    ⟨F.q.leftCols k, r.topRows k⟩

end PolynomialEquations
