import PolynomialEquations.Matrix.Triangular
import PolynomialEquations.Proofs.Matrix.Norms
import Mathlib.LinearAlgebra.FiniteDimensional.Basic

/-!
# Back substitution

The rows computed from the last one up keep one property: each is what substitution computes from
the rows below it. When every pivot exceeds the tolerance the recursion reaches the first row, and
for an upper triangular matrix the property of all rows says that they solve the system.
-/

namespace PolynomialEquations

variable {K : Type} [RCLike K] {U C : Mat K} {n : ℕ}

/-- Every row, the first of which is row `i`, is substituted from the rows below it. -/
def IsSubstituted (U C : Mat K) (i : ℕ) (rows : List (Array K)) : Prop :=
  ∀ t < rows.length, rows.getD t #[] = substituteRow U C (i + t) (rows.drop (t + 1))

/-- One more row is substituted on top. -/
theorem IsSubstituted.cons {i : ℕ} {below : List (Array K)} (h : IsSubstituted U C (i + 1) below) :
    IsSubstituted U C i (substituteRow U C i below :: below) := by
  intro t ht
  cases t with
  | zero => rfl
  | succ t =>
    have hrow := h t (by simpa using ht)
    rwa [Nat.add_right_comm] at hrow

/-- Pivots above the tolerance let the recursion reach the first row. -/
theorem exists_substituteRows (hrows : U.rows = n) (hcols : U.cols = n) {tol : ℝ} {i : ℕ}
    (hpivots : ∀ r < i, tol < ‖U.get r r‖) {below : List (Array K)}
    (hlength : i + below.length = n) (hbelow : IsSubstituted U C i below) :
    ∃ rows, substituteRows U C tol i below = .ok rows ∧ rows.length = n ∧
      IsSubstituted U C 0 rows := by
  induction i generalizing below with
  | zero => exact ⟨below, rfl, by omega, hbelow⟩
  | succ i ih =>
    obtain ⟨rows, hok, hrest⟩ := ih (fun r hr => hpivots r (by omega))
      (by rw [List.length_cons]; omega) hbelow.cons
    have hpivot : ¬Scalar.modulus (U.get i i) ≤ tol := not_le_of_gt (hpivots i (by omega))
    refine ⟨rows, ?_, hrest⟩
    rw [substituteRows, if_neg (by omega), if_neg hpivot, if_neg (by omega), hok]

/-- A substituted row solves its equation. -/
theorem IsSubstituted.sum_eq {rows : List (Array K)} (h : IsSubstituted U C 0 rows)
    (hlength : rows.length = n) {t c : ℕ} (ht : t < n) (hc : c < C.cols)
    (hpivot : U.get t t ≠ 0) (hupper : ∀ k < t, U.get t k = 0) :
    ∑ k ∈ Finset.range n, U.get t k * (rows.getD k #[]).getD c 0 = C.get t c := by
  have hrow : (rows.getD t #[]).getD c 0 = (C.get t c - ∑ k ∈ Finset.range (n - (t + 1)),
      U.get t (t + 1 + k) * (rows.getD (t + 1 + k) #[]).getD c 0) / U.get t t := by
    rw [h t (by omega), Nat.zero_add, substituteRow, getD_ofFn, dif_pos hc, sumTo_eq_sum,
      List.length_drop, hlength]
    simp only [List.getD_eq_getElem?_getD, List.getElem?_drop]
  have hsplit : n = t + 1 + (n - (t + 1)) := by omega
  rw [hsplit, Finset.sum_range_add, Finset.sum_range_succ, hrow, mul_div_cancel₀ _ hpivot,
    Finset.sum_eq_zero, zero_add, sub_add_cancel]
  intro k hk
  rw [hupper k (Finset.mem_range.mp hk), zero_mul]

/-- An upper triangular system whose pivots exceed the tolerance is solved. -/
theorem exists_backSubstitute (hrows : U.rows = n) (hcols : U.cols = n) (hC : C.rows = n)
    (hpivots : ∀ r < n, (U.tolerance : ℝ) < ‖U.get r r‖)
    (hupper : ∀ i < n, ∀ k < i, U.get i k = 0) :
    ∃ X, backSubstitute (R := ℝ) U C = .ok X ∧ X.rows = n ∧ X.cols = C.cols ∧
      ∀ i < n, ∀ c < C.cols, ∑ k ∈ Finset.range n, U.get i k * X.get k c = C.get i c := by
  have hnil : IsSubstituted U C n [] := fun t ht => absurd ht (Nat.not_lt_zero t)
  have hempty : n + ([] : List (Array K)).length = n := rfl
  obtain ⟨rows, hok, hlength, hsubstituted⟩ :=
    exists_substituteRows hrows hcols hpivots hempty hnil
  refine ⟨Mat.ofFn C.rows C.cols fun i c => (rows.getD i #[]).getD c 0, ?_, hC, rfl, ?_⟩
  · rw [backSubstitute, hC, hok]
    rfl
  · intro i hi c hc
    have hpivot : U.get i i ≠ 0 := norm_pos_iff.mp (U.tolerance_nonneg.trans_lt (hpivots i hi))
    rw [← hsubstituted.sum_eq hlength hi hc hpivot (hupper i hi)]
    refine Finset.sum_congr rfl fun k hk => ?_
    rw [Mat.get_ofFn _ (by rw [hC]; exact Finset.mem_range.mp hk) hc]

/-- An upper triangular system for one vector, whose pivots exceed the tolerance, is solved. -/
theorem exists_backSubstituteVector {y : Array K} (hrows : U.rows = n) (hcols : U.cols = n)
    (hy : y.size = n) (hpivots : ∀ r < n, (U.tolerance : ℝ) < ‖U.get r r‖)
    (hupper : ∀ i < n, ∀ k < i, U.get i k = 0) :
    ∃ x, backSubstituteVector (R := ℝ) U y = .ok x ∧ x.size = n ∧ U.mulVec x = y := by
  obtain ⟨X, hok, hXrows, -, hsum⟩ :=
    exists_backSubstitute (C := Mat.ofColumn y) hrows hcols hy hpivots hupper
  have hsize : (X.col 0).size = n := by rw [Mat.size_col, hXrows]
  refine ⟨X.col 0, ?_, hsize, ?_⟩
  · rw [backSubstituteVector, hok]
    rfl
  · refine eq_of_getD_eq (by rw [Mat.size_mulVec, hrows, hy]) fun i => ?_
    by_cases hi : i < n
    · rw [Mat.getD_mulVec U _ (by omega), hcols]
      have hentry := hsum i hi 0 Nat.one_pos
      rw [Mat.ofColumn, Mat.get_ofFn _ (by omega) Nat.one_pos] at hentry
      rw [← hentry]
      refine Finset.sum_congr rfl fun k hk => ?_
      rw [Mat.getD_col, if_pos (by rw [hXrows]; exact Finset.mem_range.mp hk)]
    · rw [getD_of_size_le (by rw [Mat.size_mulVec]; omega), getD_of_size_le (by omega)]

/-- A square system that is solved for every right side has no more than one solution. -/
theorem eq_of_mulVec_eq (hrows : U.rows = n) (hcols : U.cols = n)
    (hsolvable : ∀ y : Array K, y.size = n → ∃ x, x.size = n ∧ U.mulVec x = y) {u v : Array K}
    (hu : u.size = n) (hv : v.size = n) (h : U.mulVec u = U.mulVec v) : u = v := by
  have hsurjective : Function.Surjective (U.toMatrix n n).mulVecLin := by
    intro y
    obtain ⟨x, -, hx⟩ := hsolvable (Array.ofFn y) Array.size_ofFn
    refine ⟨coordinates n x, ?_⟩
    rw [Matrix.mulVecLin_apply, ← Mat.coordinates_mulVec_of_eq hrows hcols, hx, coordinates_ofFn]
  have hinjective := LinearMap.injective_iff_surjective.mpr hsurjective
  refine eq_of_coordinates_eq hu hv (hinjective ?_)
  rw [Matrix.mulVecLin_apply, Matrix.mulVecLin_apply, ← Mat.coordinates_mulVec_of_eq hrows hcols,
    ← Mat.coordinates_mulVec_of_eq hrows hcols, h]

end PolynomialEquations
