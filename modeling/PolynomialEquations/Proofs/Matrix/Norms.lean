import PolynomialEquations.Proofs.Matrix.Entries
import Mathlib.Algebra.Order.Chebyshev

/-!
# Norms of stored matrices

The Frobenius norm sums over the rows and columns of a matrix, and the row sum norm is a largest row
sum. A row whose squares add up to a bound has a row sum that the bound and the number of columns
limit; this keeps the tolerance for pivots small.
-/

namespace PolynomialEquations

/-- A sum over positions that are stored row by row, row after row. -/
theorem sum_range_mul_eq {M : Type} [AddCommMonoid M] (g : ℕ → M) (m n : ℕ) :
    ∑ p ∈ Finset.range (m * n), g p =
      ∑ i ∈ Finset.range m, ∑ j ∈ Finset.range n, g (i * n + j) := by
  induction m with
  | zero => simp
  | succ m ih => rw [Nat.succ_mul, Finset.sum_range_add, ih, Finset.sum_range_succ]

namespace Mat

variable {K : Type} [RCLike K]

/-- The squared Frobenius norm sums the squared absolute values of all entries. -/
theorem frobeniusNorm_sq {A : Mat K} (hsize : A.entries.size = A.rows * A.cols) :
    A.frobeniusNorm ^ 2 =
      ∑ i ∈ Finset.range A.rows, ∑ j ∈ Finset.range A.cols, ‖A.get i j‖ ^ 2 := by
  rw [frobeniusNorm, euclideanNorm_sq, hsize, sum_range_mul_eq]
  refine Finset.sum_congr rfl fun i _ => Finset.sum_congr rfl fun j hj => ?_
  rw [get, if_pos (Finset.mem_range.mp hj)]

/-- The row sum norm is at most a bound exactly when the bound is not negative and no row sum
exceeds it. -/
theorem rowSumNorm_le_iff (A : Mat K) (B : ℝ) : A.rowSumNorm ≤ B ↔
    0 ≤ B ∧ ∀ i < A.rows, ∑ j ∈ Finset.range A.cols, ‖A.get i j‖ ≤ B := by
  simp only [rowSumNorm, largestTo_le_iff, sumTo_eq_sum, scalar_modulus]

/-- The tolerance for pivots is not negative. -/
theorem tolerance_nonneg (U : Mat K) : (0 : ℝ) ≤ U.tolerance := by
  rw [tolerance]
  split
  · exact negligible_pos.le
  · exact mul_nonneg negligible_pos.le ((U.rowSumNorm_le_iff _).mp le_rfl).1

/-- Rows whose squares add up to at most `B ^ 2` limit the tolerance for pivots. -/
theorem tolerance_le_of_sum_sq_le {U : Mat K} {B : ℝ} (hB : 0 ≤ B) (hentries : U.rows * U.cols ≠ 0)
    (hrow : ∀ i < U.rows, ∑ j ∈ Finset.range U.cols, ‖U.get i j‖ ^ 2 ≤ B ^ 2) :
    (U.tolerance : ℝ) ≤ negligible ℝ * (√U.cols * B) := by
  rw [tolerance, if_neg hentries]
  refine mul_le_mul_of_nonneg_left ?_ negligible_pos.le
  rw [rowSumNorm_le_iff]
  refine ⟨by positivity, fun i hi => ?_⟩
  have hsquare := sq_sum_le_card_mul_sum_sq (s := Finset.range U.cols) (f := fun j => ‖U.get i j‖)
  rw [Finset.card_range] at hsquare
  refine abs_le_of_sq_le_sq' ?_ (by positivity) |>.2
  calc (∑ j ∈ Finset.range U.cols, ‖U.get i j‖) ^ 2
      ≤ U.cols * ∑ j ∈ Finset.range U.cols, ‖U.get i j‖ ^ 2 := hsquare
    _ ≤ U.cols * B ^ 2 := mul_le_mul_of_nonneg_left (hrow i hi) (Nat.cast_nonneg _)
    _ = (√U.cols * B) ^ 2 := by rw [mul_pow, Real.sq_sqrt (Nat.cast_nonneg _)]

end Mat

end PolynomialEquations
