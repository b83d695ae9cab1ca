import PolynomialEquations.Matrix.Basic
import PolynomialEquations.Proofs.Vector
import PolynomialEquations.Proofs.Scalar.Exact
import Mathlib.LinearAlgebra.FiniteDimensional.Lemmas
import Mathlib.LinearAlgebra.Matrix.Rank
import Mathlib.LinearAlgebra.Matrix.ToLin

/-!
# Stored matrices and linear maps

A stored matrix reads as zero outside its shape. Read on the indices of its shape it is a matrix in
the usual sense, and the product with a stored vector is the matrix-vector product.
-/

namespace PolynomialEquations

namespace Mat

variable {K : Type}

/-- The entry of a matrix built from a formula, zero outside its shape. -/
theorem get_ofFn_eq [Zero K] (m n : ℕ) (f : ℕ → ℕ → K) (i j : ℕ) :
    (ofFn m n f).get i j = if i < m ∧ j < n then f i j else 0 := by
  by_cases hj : j < n
  · by_cases hi : i < m
    · rw [get_ofFn f hi hj, if_pos ⟨hi, hj⟩]
    · rw [if_neg (fun h => hi h.1), get, cols_ofFn, if_pos hj]
      refine getD_of_size_le ?_
      have hrow : m * n ≤ i * n := Nat.mul_le_mul_right n (by omega)
      simp only [ofFn, Array.size_ofFn]
      omega
  · rw [if_neg (fun h => hj h.2), get, cols_ofFn, if_neg hj]

/-- A stored matrix is determined by its shape and its entries. -/
theorem eq_of_get_eq [Zero K] {A B : Mat K} (hA : A.entries.size = A.rows * A.cols)
    (hB : B.entries.size = B.rows * B.cols) (hrows : A.rows = B.rows) (hcols : A.cols = B.cols)
    (h : ∀ i < A.rows, ∀ j < A.cols, A.get i j = B.get i j) : A = B := by
  obtain ⟨m, n, u⟩ := A
  obtain ⟨m', n', v⟩ := B
  obtain rfl : m = m' := hrows
  obtain rfl : n = n' := hcols
  refine congrArg (Mat.mk m n) (eq_of_getD_eq (hA.trans hB.symm) fun p => ?_)
  by_cases hp : p < m * n
  · have hn : 0 < n := Nat.pos_of_mul_pos_left (Nat.zero_lt_of_lt hp)
    have hentry := h (p / n) (Nat.div_lt_of_lt_mul (by rwa [Nat.mul_comm])) (p % n)
      (Nat.mod_lt p hn)
    rw [get, get, if_pos (Nat.mod_lt p hn), if_pos (Nat.mod_lt p hn), Nat.div_add_mod'] at hentry
    exact hentry
  · rw [getD_of_size_le (by rw [hA]; exact Nat.le_of_not_lt hp),
      getD_of_size_le (by rw [hB]; exact Nat.le_of_not_lt hp)]

/-- Column `j` of a stored matrix, from the first row to the last. -/
theorem getD_col [Zero K] (A : Mat K) (j i : ℕ) :
    (A.col j).getD i 0 = if i < A.rows then A.get i j else 0 := by
  rw [col, getD_ofFn]
  split <;> rfl

/-- A matrix with enough rows has the number of first rows asked for. -/
theorem rows_topRows [Zero K] {A : Mat K} {m : ℕ} (h : m ≤ A.rows) : (A.topRows m).rows = m :=
  Nat.min_eq_left h

/-- The first rows have the entries of the matrix. -/
theorem get_topRows [Zero K] (A : Mat K) {m i j : ℕ} (hm : i < m) (hi : i < A.rows)
    (hj : j < A.cols) : (A.topRows m).get i j = A.get i j :=
  get_ofFn _ (lt_min hm hi) hj

/-- The first columns have the entries of the matrix. -/
theorem get_leftCols [Zero K] (A : Mat K) {n i j : ℕ} (hi : i < A.rows) (hn : j < n)
    (hj : j < A.cols) : (A.leftCols n).get i j = A.get i j :=
  get_ofFn _ hi (lt_min hn hj)

@[simp] theorem size_col [Zero K] (A : Mat K) (j : ℕ) : (A.col j).size = A.rows := Array.size_ofFn

section Product

variable [CommSemiring K]

@[simp] theorem size_mulVec (A : Mat K) (v : Array K) : (A.mulVec v).size = A.rows :=
  Array.size_ofFn

/-- An entry of a matrix-vector product. -/
theorem getD_mulVec (A : Mat K) (v : Array K) {i : ℕ} (hi : i < A.rows) :
    (A.mulVec v).getD i 0 = ∑ k ∈ Finset.range A.cols, A.get i k * v.getD k 0 := by
  rw [mulVec, getD_ofFn, dif_pos hi, sumTo_eq_sum]

/-- The first rows of a matrix give the first entries of a product. -/
theorem getD_mulVec_topRows (A : Mat K) (v : Array K) {m i : ℕ} (hm : i < m) (hi : i < A.rows) :
    ((A.topRows m).mulVec v).getD i 0 = (A.mulVec v).getD i 0 := by
  have hrows : i < (A.topRows m).rows := lt_min hm hi
  rw [getD_mulVec _ _ hrows, getD_mulVec _ _ hi]
  refine Finset.sum_congr rfl fun k hk => ?_
  rw [get_topRows A hm hi (Finset.mem_range.mp hk)]

/-- The matrix on the given numbers of rows and columns. -/
def toMatrix (A : Mat K) (m n : ℕ) : Matrix (Fin m) (Fin n) K := Matrix.of fun i j => A.get i j

@[simp] theorem toMatrix_apply (A : Mat K) {m n : ℕ} (i : Fin m) (j : Fin n) :
    A.toMatrix m n i j = A.get i j := rfl

/-- An entry of a product of matrices. -/
theorem get_mul (A B : Mat K) {i j : ℕ} (hi : i < A.rows) (hj : j < B.cols) :
    (A.mul B).get i j = ∑ k ∈ Finset.range A.cols, A.get i k * B.get k j := by
  rw [mul, get_ofFn _ hi hj, sumTo_eq_sum]

/-- The stored product is the product of the matrices. -/
theorem toMatrix_mul {A B : Mat K} {m p n : ℕ} (hm : A.rows = m) (hp : A.cols = p)
    (hn : B.cols = n) : (A.mul B).toMatrix m n = A.toMatrix m p * B.toMatrix p n := by
  subst hm hp hn
  ext i j
  rw [toMatrix_apply, get_mul A B i.isLt j.isLt,
    ← Fin.sum_univ_eq_sum_range (fun k => A.get i k * B.get k j)]
  rfl

/-- The product with a stored vector is the product of the matrix and the vector. -/
theorem coordinates_mulVec (A : Mat K) (v : Array K) :
    coordinates A.rows (A.mulVec v) = (A.toMatrix A.rows A.cols).mulVec (coordinates A.cols v) := by
  funext i
  rw [coordinates, getD_mulVec A v i.isLt, ← Fin.sum_univ_eq_sum_range
    (fun k => A.get i k * v.getD k 0)]
  rfl

/-- The product with a stored vector for a matrix whose shape is known. -/
theorem coordinates_mulVec_of_eq {A : Mat K} {m n : ℕ} (hm : A.rows = m) (hn : A.cols = n)
    (v : Array K) :
    coordinates m (A.mulVec v) = (A.toMatrix m n).mulVec (coordinates n v) := by
  subst hm hn
  exact coordinates_mulVec A v

/-- The product of a sum of matrices of one shape with a vector. -/
theorem getD_mulVec_add {A B : Mat K} (hrows : B.rows = A.rows) (hcols : B.cols = A.cols)
    (v : Array K) (i : ℕ) :
    ((A.add B).mulVec v).getD i 0 = (A.mulVec v).getD i 0 + (B.mulVec v).getD i 0 := by
  by_cases hi : i < A.rows
  · have hsum : i < (A.add B).rows := hi
    have hcols' : (A.add B).cols = A.cols := rfl
    rw [getD_mulVec _ _ hsum, getD_mulVec _ _ hi, getD_mulVec _ _ (by omega), hcols, hcols',
      ← Finset.sum_add_distrib]
    refine Finset.sum_congr rfl fun k hk => ?_
    rw [add, get_ofFn _ hi (Finset.mem_range.mp hk), add_mul]
  · rw [getD_of_size_le (by rw [size_mulVec]; exact Nat.le_of_not_lt hi),
      getD_of_size_le (by rw [size_mulVec]; omega), getD_of_size_le (by rw [size_mulVec]; omega),
      add_zero]

/-- The product of a product of matrices with a vector. -/
theorem mulVec_mul {A B : Mat K} (hshape : A.cols = B.rows) (v : Array K) :
    (A.mul B).mulVec v = A.mulVec (B.mulVec v) := by
  refine eq_of_getD_eq (by rw [size_mulVec, size_mulVec]; rfl) fun i => ?_
  by_cases hi : i < A.rows
  · have hproduct : i < (A.mul B).rows := hi
    have hcols : (A.mul B).cols = B.cols := rfl
    rw [getD_mulVec _ _ hproduct, getD_mulVec _ _ hi, hcols]
    have hleft : ∀ k ∈ Finset.range B.cols, (A.mul B).get i k * v.getD k 0 =
        ∑ j ∈ Finset.range A.cols, A.get i j * (B.get j k * v.getD k 0) := by
      intro k hk
      rw [get_mul A B hi (Finset.mem_range.mp hk), Finset.sum_mul]
      exact Finset.sum_congr rfl fun j _ => mul_assoc _ _ _
    have hright : ∀ j ∈ Finset.range A.cols, A.get i j * (B.mulVec v).getD j 0 =
        ∑ k ∈ Finset.range B.cols, A.get i j * (B.get j k * v.getD k 0) := by
      intro j hj
      rw [Finset.mem_range, hshape] at hj
      rw [getD_mulVec _ _ hj, Finset.mul_sum]
    rw [Finset.sum_congr rfl hleft, Finset.sum_congr rfl hright, Finset.sum_comm]
  · rw [getD_of_size_le (by rw [size_mulVec]; exact Nat.le_of_not_lt hi),
      getD_of_size_le (by rw [size_mulVec]; omega)]

/-- The kernel of a stored matrix: the vectors that it maps to zero. -/
def kernel (A : Mat K) : Submodule K (Fin A.cols → K) :=
  LinearMap.ker (A.toMatrix A.rows A.cols).mulVecLin

/-- A stored vector lies in the kernel exactly when its product with the matrix has only zeros. -/
theorem coordinates_mem_kernel_iff (A : Mat K) (v : Array K) :
    coordinates A.cols v ∈ A.kernel ↔ ∀ i, (A.mulVec v).getD i 0 = 0 := by
  rw [kernel, LinearMap.mem_ker, Matrix.mulVecLin_apply, ← coordinates_mulVec]
  constructor
  · intro h i
    by_cases hi : i < A.rows
    · exact congrFun h ⟨i, hi⟩
    · exact getD_of_size_le (by rw [size_mulVec]; omega)
  · intro h
    funext i
    exact h i

end Product

/-- The rank of a stored matrix. -/
noncomputable def rank [Field K] (A : Mat K) : ℕ := (A.toMatrix A.rows A.cols).rank

/-- The rank and the dimension of the kernel add up to the number of columns. -/
theorem rank_add_finrank_kernel [Field K] (A : Mat K) :
    A.rank + Module.finrank K A.kernel = A.cols := by
  have hsum := (A.toMatrix A.rows A.cols).mulVecLin.finrank_range_add_finrank_ker
  rwa [Module.finrank_fin_fun] at hsum

end Mat

/-- A vector filled up with zeros has the entries of the vector. -/
theorem getD_padTo {K : Type} [Zero K] {v w : Array K} {n : ℤ} (h : padTo v n = .ok w) (i : ℕ) :
    w.getD i 0 = v.getD i 0 := by
  unfold padTo at h
  split at h
  · cases h
  · obtain rfl := Except.ok.inj h
    simp only [Array.getD_eq_getD_getElem?, Array.getElem?_append, Array.getElem?_replicate]
    by_cases hi : i < v.size
    · rw [if_pos hi]
    · rw [if_neg hi, Array.getElem?_eq_none (by omega)]
      split <;> rfl

/-- A vector that has the length asked for stays as it is. -/
theorem padTo_size {K : Type} [Zero K] (v : Array K) : padTo v v.size = .ok v := by
  rw [padTo, if_neg (lt_irrefl _), Int.toNat_natCast, Nat.sub_self, Array.replicate_zero,
    Array.append_empty]

/-- A vector that is not too long can be filled up, to exactly the length asked for. -/
theorem exists_padTo {K : Type} [Zero K] {v : Array K} {n : ℕ} (h : v.size ≤ n) :
    ∃ w, padTo v n = .ok w ∧ w.size = n := by
  refine ⟨_, if_neg (by omega), ?_⟩
  simp only [Array.size_append, Array.size_replicate, Int.toNat_natCast]
  omega

end PolynomialEquations
