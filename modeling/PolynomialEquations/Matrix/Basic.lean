import PolynomialEquations.Scalar.Basic
import PolynomialEquations.Failure

/-!
# Dense matrices

Matrices stored row by row, read through `get`, which is zero outside the matrix, and built from
a formula for the entries with `ofFn`.
-/

namespace PolynomialEquations

/-- A matrix of `rows` by `cols` entries, stored row by row. -/
structure Mat (K : Type) where
  /-- The number of rows. -/
  rows : Nat
  /-- The number of columns. -/
  cols : Nat
  /-- The entries, row by row. -/
  entries : Array K
  deriving Repr

namespace Mat

variable {K : Type}

/-- The matrix with entry `f i j` in row `i` and column `j`. -/
def ofFn (rows cols : Nat) (f : Nat → Nat → K) : Mat K :=
  ⟨rows, cols, Array.ofFn fun p : Fin (rows * cols) => f (p / cols) (p % cols)⟩

/-- The entry in row `i` and column `j`, zero outside the matrix. -/
def get [Zero K] (A : Mat K) (i j : Nat) : K :=
  if j < A.cols then A.entries.getD (i * A.cols + j) 0 else 0

@[simp] theorem rows_ofFn (m n : Nat) (f : Nat → Nat → K) : (ofFn m n f).rows = m := rfl

@[simp] theorem cols_ofFn (m n : Nat) (f : Nat → Nat → K) : (ofFn m n f).cols = n := rfl

/-- A matrix built from a formula has the entries of the formula. -/
theorem get_ofFn [Zero K] {m n i j : Nat} (f : Nat → Nat → K) (hi : i < m) (hj : j < n) :
    (ofFn m n f).get i j = f i j := by
  have hp : i * n + j < m * n := by
    have := Nat.mul_le_mul_right n (Nat.succ_le_of_lt hi)
    rw [Nat.succ_mul] at this
    omega
  have hdiv : (i * n + j) / n = i := by
    rw [Nat.mul_comm, Nat.mul_add_div (by omega), Nat.div_eq_of_lt hj, Nat.add_zero]
  have hmod : (i * n + j) % n = j := by
    rw [Nat.mul_comm, Nat.mul_add_mod, Nat.mod_eq_of_lt hj]
  simp [get, ofFn, hj, hp, hdiv, hmod]

section Construction

variable [Zero K]

/-- The identity matrix. -/
def identity [One K] (n : Nat) : Mat K := ofFn n n fun i j => if i = j then 1 else 0

/-- The zero matrix. -/
def zeros (m n : Nat) : Mat K := ofFn m n fun _ _ => 0

/-- The first `m` rows. -/
def topRows (A : Mat K) (m : Nat) : Mat K := ofFn (min m A.rows) A.cols A.get

/-- The first `n` columns. -/
def leftCols (A : Mat K) (n : Nat) : Mat K := ofFn A.rows (min n A.cols) A.get

/-- Column `j` as a vector. -/
def col (A : Mat K) (j : Nat) : Array K := Array.ofFn fun i : Fin A.rows => A.get i j

/-- The vector `v` as a matrix of one column. -/
def ofColumn (v : Array K) : Mat K := ofFn v.size 1 fun i _ => v.getD i 0

/-- The transposed matrix with every entry conjugated. -/
def adjoint {R : Type} [Scalar R K] (A : Mat K) : Mat K :=
  ofFn A.cols A.rows fun i j => Scalar.conj (A.get j i)

/-- The sum of two matrices of one shape. -/
def add [Add K] (A B : Mat K) : Mat K := ofFn A.rows A.cols fun i j => A.get i j + B.get i j

/-- The product of two matrices. -/
def mul [Add K] [Mul K] (A B : Mat K) : Mat K :=
  ofFn A.rows B.cols fun i j => sumTo (fun k => A.get i k * B.get k j) A.cols

/-- The product of a matrix and a vector. -/
def mulVec [Add K] [Mul K] (A : Mat K) (v : Array K) : Array K :=
  Array.ofFn fun i : Fin A.rows => sumTo (fun k => A.get i k * v.getD k 0) A.cols

end Construction

/-- The matrix with every entry changed by `f`. -/
def map {L : Type} (f : K → L) (A : Mat K) : Mat L := ⟨A.rows, A.cols, A.entries.map f⟩

section Norms

variable {R : Type} [Scalar R K] [Zero R] [Add R]

/-- The Frobenius norm: the 2-norm of all entries together. -/
def frobeniusNorm [Mul R] [RealFunctions R] (A : Mat K) : R := euclideanNorm A.entries

/-- The largest sum of moduli along a row. -/
def rowSumNorm [Zero K] [LE R] [DecidableLE R] (A : Mat K) : R :=
  largestTo (fun i => sumTo (fun j => Scalar.modulus (A.get i j)) A.cols) A.rows

/-- The tolerance relative to the row sum norm of `A`; an empty matrix counts as one of norm
one. -/
def tolerance [Zero K] [Mul R] [LE R] [DecidableLE R] [OfScientific R] (A : Mat K) : R :=
  if A.rows * A.cols = 0 then negligible R else negligible R * A.rowSumNorm

end Norms

end Mat

/-- The vector `v` filled up with zeros at the end to length `n`; `v` must not be longer. -/
def padTo {K : Type} [Zero K] (v : Array K) (n : Int) : Except Failure (Array K) :=
  if n < v.size then .error (.doesNotFit v.size n)
  else .ok (v ++ Array.replicate (n.toNat - v.size) 0)

end PolynomialEquations
