import PolynomialEquations.Kernel.Basic
import PolynomialEquations.Proofs.Matrix.Entries
import Mathlib.LinearAlgebra.Dimension.Constructions
import Mathlib.LinearAlgebra.Matrix.Determinant.Basic

/-!
# What the kernels of linear algebra promise

The contracts under which theorems about the solvers hold. A weak one fixes only the sizes of the
vectors returned. The exact ones say what each kernel computes: the solution of a system that is
not singular, the shortest of the vectors closest to solving a system, and a basis of the kernel.
-/

namespace PolynomialEquations

section Vectors

variable {K : Type} [RCLike K]

/-- A square matrix is singular when its determinant vanishes. -/
def Mat.IsSingular (S : Mat K) : Prop := (S.toMatrix S.rows S.rows).det = 0

/-- The distance between `S v` and the right side. -/
noncomputable def residualNorm (S : Mat K) (rhs v : Array K) : ℝ :=
  √(∑ i ∈ Finset.range S.rows, ‖(S.mulVec v).getD i 0 - rhs.getD i 0‖ ^ 2)

/-- The vector `v` is the shortest of all vectors for which `S v` is closest to the right side. -/
structure IsLeastSquares (S : Mat K) (rhs v : Array K) : Prop where
  /-- There is one entry for every unknown. -/
  size_eq : v.size = S.cols
  /-- No other vector comes closer. -/
  residual_le : ∀ u : Array K, u.size = S.cols → residualNorm S rhs v ≤ residualNorm S rhs u
  /-- No vector that comes as close is shorter. -/
  norm_le : ∀ u : Array K, u.size = S.cols → residualNorm S rhs u = residualNorm S rhs v →
    (euclideanNorm v : ℝ) ≤ euclideanNorm u

/-- Column `j` of a stored matrix, on the first `n` rows. -/
def Mat.column (N : Mat K) (n : ℕ) (j : Fin N.cols) : Fin n → K := fun i => N.get i j

/-- The columns of `N` are a basis of the kernel of `A`. -/
structure IsKernelBasis (A N : Mat K) : Prop where
  /-- A column has one entry for every unknown. -/
  rows_eq : N.rows = A.cols
  /-- The columns are linearly independent. -/
  independent : LinearIndependent K (N.column A.cols)
  /-- The columns span the kernel. -/
  span_eq : Submodule.span K (Set.range (N.column A.cols)) = A.kernel

/-- A vector solves a system exactly when its residual vanishes. -/
theorem residualNorm_eq_zero_iff {S : Mat K} {rhs : Array K} (hrhs : rhs.size = S.rows)
    (v : Array K) : residualNorm S rhs v = 0 ↔ S.mulVec v = rhs := by
  rw [residualNorm, Real.sqrt_eq_zero (Finset.sum_nonneg fun i _ => sq_nonneg _),
    Finset.sum_eq_zero_iff_of_nonneg fun i _ => sq_nonneg _]
  constructor
  · intro h
    refine eq_of_getD_eq ((Mat.size_mulVec S v).trans hrhs.symm) fun i => ?_
    by_cases hi : i < S.rows
    · have hterm := h i (Finset.mem_range.mpr hi)
      rwa [sq_eq_zero_iff, norm_eq_zero, sub_eq_zero] at hterm
    · rw [getD_of_size_le (by rw [Mat.size_mulVec]; omega), getD_of_size_le (by omega)]
  · intro h i _
    rw [h, sub_self, norm_zero, zero_pow two_ne_zero]

/-- A basis of the kernel has as many columns as the kernel has dimensions. -/
theorem IsKernelBasis.cols_eq {A N : Mat K} (h : IsKernelBasis A N) :
    N.cols = Module.finrank K A.kernel := by
  rw [← h.span_eq, finrank_span_eq_card h.independent, Fintype.card_fin]

/-- A stored column of a matrix with `n` rows is the column on its `n` rows. -/
theorem Mat.coordinates_col {N : Mat K} {n : ℕ} (hn : N.rows = n) (j : Fin N.cols) :
    coordinates n (N.col j) = N.column n j := by
  funext i
  rw [coordinates, Mat.getD_col, if_pos (i.isLt.trans_eq hn.symm)]
  rfl

/-- A column other than zero has an entry other than zero. -/
theorem Mat.exists_col_ne_zero {N : Mat K} {n : ℕ} (hn : N.rows = n) {j : Fin N.cols}
    (h : N.column n j ≠ 0) : ∃ i, (N.col j).getD i 0 ≠ 0 := by
  rw [← coordinates_col hn] at h
  obtain ⟨i, hi⟩ := Function.ne_iff.mp h
  exact ⟨i, hi⟩

/-- Column `j` of a basis of the kernel, as a stored vector. -/
theorem IsKernelBasis.coordinates_col {A N : Mat K} (h : IsKernelBasis A N) {j : ℕ}
    (hj : j < N.cols) : coordinates A.cols (N.col j) = N.column A.cols ⟨j, hj⟩ :=
  Mat.coordinates_col h.rows_eq ⟨j, hj⟩

/-- A column of a basis of the kernel lies in the kernel. -/
theorem IsKernelBasis.col_mem_kernel {A N : Mat K} (h : IsKernelBasis A N) {j : ℕ}
    (hj : j < N.cols) : coordinates A.cols (N.col j) ∈ A.kernel := by
  rw [h.coordinates_col hj, ← h.span_eq]
  exact Submodule.subset_span (Set.mem_range_self _)

/-- A column of a basis of the kernel has an entry other than zero. -/
theorem IsKernelBasis.exists_col_ne_zero {A N : Mat K} (h : IsKernelBasis A N) {j : ℕ}
    (hj : j < N.cols) : ∃ i, (N.col j).getD i 0 ≠ 0 :=
  Mat.exists_col_ne_zero h.rows_eq (h.independent.ne_zero ⟨j, hj⟩)

end Vectors

namespace LinearKernels

/-- The kernels for linear systems return vectors of the right size, and the one for least squares
returns one for every system. Nothing is said about the entries. -/
structure ReturnsSizes {K : Type} (kernels : LinearKernels K) : Prop where
  /-- A vector found by elimination has one entry for every unknown. -/
  solve_size : ∀ {S : Mat K} {rhs v : Array K}, S.rows = S.cols → rhs.size = S.rows →
    kernels.solve S rhs = .ok v → v.size = S.cols
  /-- Least squares always ends with one entry for every unknown. -/
  leastSquares_size : ∀ {S : Mat K} {rhs : Array K}, rhs.size = S.rows →
    ∃ v, kernels.leastSquares S rhs = .ok v ∧ v.size = S.cols

variable {K : Type} [RCLike K]

/-- Systems of linear equations are solved exactly. -/
structure SolvesExactly (kernels : LinearKernels K) : Prop where
  /-- Elimination solves every square system that is not singular. -/
  solve_ok : ∀ {S : Mat K} {rhs : Array K}, S.rows = S.cols → rhs.size = S.rows →
    ¬S.IsSingular → ∃ v, kernels.solve S rhs = .ok v ∧ v.size = S.cols ∧ S.mulVec v = rhs
  /-- Elimination reports every singular system. -/
  solve_error : ∀ {S : Mat K} {rhs : Array K}, S.rows = S.cols → rhs.size = S.rows →
    S.IsSingular → ∃ obstacle, kernels.solve S rhs = .error obstacle
  /-- Least squares finds the shortest of the closest vectors. -/
  leastSquares_ok : ∀ {S : Mat K} {rhs : Array K}, rhs.size = S.rows →
    ∃ v, kernels.leastSquares S rhs = .ok v ∧ IsLeastSquares S rhs v

/-- Least squares problems are solved exactly. -/
structure FitsExactly (kernels : LinearKernels K) : Prop where
  /-- Least squares finds the shortest of the closest vectors. -/
  leastSquares_ok : ∀ {S : Mat K} {rhs : Array K}, rhs.size = S.rows →
    ∃ v, kernels.leastSquares S rhs = .ok v ∧ IsLeastSquares S rhs v

/-- Kernels of matrices are found exactly. -/
structure SpansKernels (kernels : LinearKernels K) : Prop where
  /-- A matrix with entries gets a basis of its kernel. -/
  nullBasis_ok : ∀ {A : Mat K}, 0 < A.rows → 0 < A.cols →
    ∃ N, kernels.nullBasis A = .ok N ∧ IsKernelBasis A N

/-- Ranks of matrices are found exactly. -/
structure RanksExactly (kernels : LinearKernels K) : Prop where
  /-- A matrix with entries gets its rank. -/
  rank_ok : ∀ {A : Mat K}, 0 < A.rows → 0 < A.cols → kernels.rank A = .ok A.rank

/-- The guard gives a matrix without entries its rank too. -/
theorem RanksExactly.rankOf_eq {kernels : LinearKernels K} (hk : kernels.RanksExactly)
    (A : Mat K) : kernels.rankOf A = .ok A.rank := by
  rw [rankOf]
  by_cases hentries : A.rows * A.cols = 0
  · have hrows : A.rank ≤ A.rows := Matrix.rank_le_height _
    have hcols : A.rank ≤ A.cols := Matrix.rank_le_width _
    have hzero : A.rank = 0 := by
      rcases Nat.mul_eq_zero.mp hentries with h | h <;> omega
    rw [if_pos hentries, hzero]
  · rw [if_neg hentries]
    rw [Nat.mul_eq_zero, not_or] at hentries
    exact hk.rank_ok (by omega) (by omega)

/-- For a matrix with entries the guards of the null space do not apply. -/
theorem SpansKernels.exists_nullspace {kernels : LinearKernels K} (hk : kernels.SpansKernels)
    {A : Mat K} (hrows : 0 < A.rows) (hcols : 0 < A.cols) :
    ∃ N, kernels.nullspace A = .ok N ∧ IsKernelBasis A N := by
  rw [nullspace, if_neg (by omega), if_neg (by omega)]
  exact hk.nullBasis_ok hrows hcols

/-- Exact kernels return vectors of the right size. -/
theorem SolvesExactly.returnsSizes {kernels : LinearKernels K} (hk : kernels.SolvesExactly) :
    kernels.ReturnsSizes where
  solve_size {S rhs v} hsquare hrhs hsolve := by
    by_cases hsingular : S.IsSingular
    · obtain ⟨obstacle, herror⟩ := hk.solve_error hsquare hrhs hsingular
      rw [herror] at hsolve
      cases hsolve
    · obtain ⟨u, hok, hsize, _⟩ := hk.solve_ok hsquare hrhs hsingular
      rw [hok] at hsolve
      obtain rfl := Except.ok.inj hsolve
      exact hsize
  leastSquares_size hrhs := by
    obtain ⟨v, hok, hv⟩ := hk.leastSquares_ok hrhs
    exact ⟨v, hok, hv.size_eq⟩

end LinearKernels

end PolynomialEquations
