import PolynomialEquations.Matrix.Structured
import PolynomialEquations.Proofs.Matrix.Entries
import PolynomialEquations.Proofs.Poly.Meaning

/-!
# Structured matrices multiply polynomials

The banded Toeplitz matrix of `a` maps the coefficients of `x` to those of `a x`, and the Sylvester
matrix of `a` and `b` maps the coefficients of `x` followed by those of `y` to those of
`a x + b y`, whatever the widths of the blocks are. No coefficient of the product lies behind the
last row.
-/

namespace PolynomialEquations

open Polynomial

section Entries

variable {K : Type} [CommRing K]

/-- A product with the shifted coefficients of `A` is a coefficient of the product with `A`. -/
theorem sum_shifted_coeff (A p : K[X]) {c : ℕ} (hp : p.degree < (c : WithBot ℕ)) (i : ℕ) :
    ∑ k ∈ Finset.range c, (if k ≤ i then A.coeff (i - k) else 0) * p.coeff k =
      (A * p).coeff i := by
  rw [mul_comm A p, coeff_mul, Finset.Nat.sum_antidiagonal_eq_sum_range_succ_mk]
  trans ∑ k ∈ Finset.range (c + (i + 1)),
    (if k ≤ i then A.coeff (i - k) else 0) * p.coeff k
  · refine Finset.sum_subset (Finset.range_mono (by omega)) fun k _ hk => ?_
    rw [Finset.mem_range, not_lt] at hk
    rw [(degree_lt_iff_coeff_zero p c).mp hp k (by exact_mod_cast hk), mul_zero]
  · symm
    have hterms : ∀ k ∈ Finset.range (i + 1), p.coeff k * A.coeff (i - k) =
        (if k ≤ i then A.coeff (i - k) else 0) * p.coeff k := by
      intro k hk
      rw [Finset.mem_range] at hk
      rw [if_pos (show k ≤ i by omega), mul_comm]
    rw [Finset.sum_congr rfl hterms]
    refine Finset.sum_subset (Finset.range_mono (by omega)) fun k _ hk => ?_
    rw [Finset.mem_range, not_lt] at hk
    rw [if_neg (by omega), zero_mul]

@[simp] theorem rows_toeplitz (a : Poly K) (c : ℕ) : (toeplitz a c).rows = a.coef.size + c - 1 :=
  rfl

@[simp] theorem cols_toeplitz (a : Poly K) (c : ℕ) : (toeplitz a c).cols = c := rfl

/-- Column `j` of the banded matrix holds the coefficients of `a` from row `j` on. -/
theorem get_toeplitz (a : Poly K) {c j : ℕ} (hj : j < c) (i : ℕ) :
    (toeplitz a c).get i j = if j ≤ i then a.toPolynomial.coeff (i - j) else 0 := by
  rw [toeplitz, Mat.get_ofFn_eq, Poly.coeff_toPolynomial]
  by_cases hi : i < a.coef.size + c - 1
  · rw [if_pos ⟨hi, hj⟩]
  · rw [if_neg (fun h => hi h.1)]
    split
    · exact (getD_of_size_le (by omega)).symm
    · rfl

/-- The rows of a block of a Sylvester matrix; a block without columns has none. -/
theorem rows_sylvesterBlock (a : Poly K) (w : ℕ) :
    (sylvesterBlock a w).rows = if w = 0 then 0 else a.coef.size + w - 1 := by
  unfold sylvesterBlock
  split <;> rfl

/-- A block of a Sylvester matrix is a banded matrix. -/
theorem get_sylvesterBlock (a : Poly K) {w j : ℕ} (hj : j < w) (i : ℕ) :
    (sylvesterBlock a w).get i j = if j ≤ i then a.toPolynomial.coeff (i - j) else 0 := by
  rw [sylvesterBlock, if_neg (by omega), get_toeplitz a hj]

/-- A block has nothing behind its last row. -/
theorem get_sylvesterBlock_of_rows_le (a : Poly K) {w i j : ℕ} (hj : j < w)
    (hi : (sylvesterBlock a w).rows ≤ i) : (sylvesterBlock a w).get i j = 0 := by
  rw [rows_sylvesterBlock, if_neg (by omega)] at hi
  rw [get_sylvesterBlock a hj]
  split
  · rw [Poly.coeff_toPolynomial]
    exact getD_of_size_le (by omega)
  · rfl

@[simp] theorem rows_sylvester (a b : Poly K) (w₁ w₂ : ℕ) : (sylvester a b w₁ w₂).rows =
    max (sylvesterBlock a w₁).rows (sylvesterBlock b w₂).rows := rfl

@[simp] theorem cols_sylvester (a b : Poly K) (w₁ w₂ : ℕ) :
    (sylvester a b w₁ w₂).cols = w₁ + w₂ := rfl

/-- The first columns of a Sylvester matrix hold the coefficients of `a`. -/
theorem get_sylvester_left (a b : Poly K) {w₁ j : ℕ} (w₂ : ℕ) (hj : j < w₁) (i : ℕ) :
    (sylvester a b w₁ w₂).get i j = if j ≤ i then a.toPolynomial.coeff (i - j) else 0 := by
  rw [sylvester, Mat.get_ofFn_eq, ← get_sylvesterBlock a hj]
  by_cases hi : i < max (sylvesterBlock a w₁).rows (sylvesterBlock b w₂).rows
  · rw [if_pos ⟨hi, by omega⟩, if_pos hj]
  · rw [if_neg (fun h => hi h.1), get_sylvesterBlock_of_rows_le a hj (by omega)]

/-- The other columns of a Sylvester matrix hold the coefficients of `b`. -/
theorem get_sylvester_right (a b : Poly K) (w₁ : ℕ) {w₂ j : ℕ} (hj : j < w₂) (i : ℕ) :
    (sylvester a b w₁ w₂).get i (w₁ + j) =
      if j ≤ i then b.toPolynomial.coeff (i - j) else 0 := by
  rw [sylvester, Mat.get_ofFn_eq, ← get_sylvesterBlock b hj]
  by_cases hi : i < max (sylvesterBlock a w₁).rows (sylvesterBlock b w₂).rows
  · rw [if_pos ⟨hi, by omega⟩, if_neg (by omega), Nat.add_sub_cancel_left]
  · rw [if_neg (fun h => hi h.1), get_sylvesterBlock_of_rows_le b hj (by omega)]

/-- The square Sylvester matrix has as many columns for a polynomial as the other one has degree. -/
theorem resultantMatrix_eq [BEq K] [LawfulBEq K] {a b : Poly K} (ha : a.IsOrdinary)
    (hb : b.IsOrdinary) (hazero : a.isZero = false) (hbzero : b.isZero = false) :
    resultantMatrix a b =
      .ok (sylvester a b b.toPolynomial.natDegree a.toPolynomial.natDegree) := by
  rw [resultantMatrix, ha.degree_eq hazero, hb.degree_eq hbzero, sylvester?, if_neg (by omega)]
  rfl

end Entries

section Pairs

variable {K : Type} [CommRing K]

/-- The coefficients of `X` below `w₁`, followed by those of `Y` below `w₂`. -/
def pairVector (w₁ w₂ : ℕ) (X Y : K[X]) : Array K :=
  Array.ofFn fun i : Fin (w₁ + w₂) => if (i : ℕ) < w₁ then X.coeff i else Y.coeff (i - w₁)

@[simp] theorem size_pairVector (w₁ w₂ : ℕ) (X Y : K[X]) :
    (pairVector w₁ w₂ X Y).size = w₁ + w₂ := Array.size_ofFn

/-- The first entries of a pair of polynomials stand for the first one. -/
theorem vectorPolynomial_pairVector_left {w₁ : ℕ} (w₂ : ℕ) {X : K[X]} (Y : K[X])
    (hX : X.degree < (w₁ : WithBot ℕ)) :
    vectorPolynomial ((pairVector w₁ w₂ X Y).extract 0 w₁) = X := by
  ext i
  rw [coeff_vectorPolynomial, getD_extract, Nat.zero_add]
  by_cases hi : i < w₁
  · rw [if_pos hi, pairVector, getD_ofFn, dif_pos (by omega), if_pos hi]
  · rw [if_neg hi, (degree_lt_iff_coeff_zero X w₁).mp hX i (by omega)]

/-- The other entries of a pair of polynomials stand for the second one. -/
theorem vectorPolynomial_pairVector_right (w₁ : ℕ) {w₂ : ℕ} (X : K[X]) {Y : K[X]}
    (hY : Y.degree < (w₂ : WithBot ℕ)) :
    vectorPolynomial ((pairVector w₁ w₂ X Y).extract w₁ (pairVector w₁ w₂ X Y).size) = Y := by
  ext i
  rw [coeff_vectorPolynomial, getD_extract, size_pairVector, pairVector, getD_ofFn]
  by_cases hi : i < w₂
  · rw [if_pos (by omega), dif_pos (by omega), if_neg (by simp), Nat.add_sub_cancel_left]
  · rw [if_neg (by omega), (degree_lt_iff_coeff_zero Y w₂).mp hY i (by omega)]

end Pairs

section Products

variable {K : Type} [CommRing K]

/-- The banded matrix of `a` maps the coefficients of a polynomial to those of its product with
`a`. -/
theorem vectorPolynomial_mulVec_toeplitz (a : Poly K) (v : Array K) :
    vectorPolynomial ((toeplitz a v.size).mulVec v) = a.toPolynomial * vectorPolynomial v := by
  ext i
  rw [coeff_vectorPolynomial, ← sum_shifted_coeff _ _ (degree_vectorPolynomial_lt le_rfl)]
  have hsum : ∑ k ∈ Finset.range v.size, (toeplitz a v.size).get i k * v.getD k 0 =
      ∑ k ∈ Finset.range v.size, (if k ≤ i then a.toPolynomial.coeff (i - k) else 0) *
        (vectorPolynomial v).coeff k := by
    refine Finset.sum_congr rfl fun k hk => ?_
    rw [get_toeplitz a (Finset.mem_range.mp hk), coeff_vectorPolynomial]
  rw [← hsum]
  by_cases hi : i < (toeplitz a v.size).rows
  · rw [Mat.getD_mulVec _ _ hi, cols_toeplitz]
  · rw [getD_of_size_le (by rw [Mat.size_mulVec]; omega)]
    refine (Finset.sum_eq_zero fun k _ => ?_).symm
    rw [toeplitz, Mat.get_ofFn_eq, if_neg (fun h => hi h.1), zero_mul]

/-- The Sylvester matrix of `a` and `b` maps the coefficients of `x` followed by those of `y` to
those of `a x + b y`. -/
theorem vectorPolynomial_mulVec_sylvester (a b : Poly K) {w₁ w₂ : ℕ} {v : Array K}
    (hv : v.size = w₁ + w₂) :
    vectorPolynomial ((sylvester a b w₁ w₂).mulVec v) =
      a.toPolynomial * vectorPolynomial (v.extract 0 w₁) +
        b.toPolynomial * vectorPolynomial (v.extract w₁ v.size) := by
  have hx : (vectorPolynomial (v.extract 0 w₁)).degree < (w₁ : WithBot ℕ) :=
    degree_vectorPolynomial_lt (by rw [Array.size_extract]; omega)
  have hy : (vectorPolynomial (v.extract w₁ v.size)).degree < (w₂ : WithBot ℕ) :=
    degree_vectorPolynomial_lt (by rw [Array.size_extract]; omega)
  ext i
  have hsum : ∑ k ∈ Finset.range (w₁ + w₂), (sylvester a b w₁ w₂).get i k * v.getD k 0 =
      (a.toPolynomial * vectorPolynomial (v.extract 0 w₁) +
        b.toPolynomial * vectorPolynomial (v.extract w₁ v.size)).coeff i := by
    rw [coeff_add, ← sum_shifted_coeff _ _ hx, ← sum_shifted_coeff _ _ hy, Finset.sum_range_add]
    congr 1
    · refine Finset.sum_congr rfl fun k hk => ?_
      rw [Finset.mem_range] at hk
      rw [get_sylvester_left a b w₂ hk, coeff_vectorPolynomial, getD_extract,
        if_pos (show 0 + k < w₁ by omega), Nat.zero_add]
    · refine Finset.sum_congr rfl fun k hk => ?_
      rw [Finset.mem_range] at hk
      rw [get_sylvester_right a b w₁ hk, coeff_vectorPolynomial, getD_extract,
        if_pos (show w₁ + k < v.size by omega)]
  rw [coeff_vectorPolynomial, ← hsum]
  by_cases hi : i < (sylvester a b w₁ w₂).rows
  · rw [Mat.getD_mulVec _ _ hi, cols_sylvester]
  · rw [getD_of_size_le (by rw [Mat.size_mulVec]; omega)]
    refine (Finset.sum_eq_zero fun k _ => ?_).symm
    rw [sylvester, Mat.get_ofFn_eq, if_neg (fun h => hi h.1), zero_mul]

end Products

end PolynomialEquations
