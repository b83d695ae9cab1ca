import PolynomialEquations.Proofs.Matrix.Factorization
import PolynomialEquations.Proofs.Matrix.Norms
import PolynomialEquations.Proofs.Matrix.Sylvester
import PolynomialEquations.Proofs.Poly.Reversal

/-!
# The banded matrix is well conditioned for factorisation

Every column of the banded matrix of `a` holds the coefficients of `a`, so all columns have one
norm. A combination of a column with the columns before it is a product of `a` with a monic
polynomial, so it is as long as that product: no column comes closer to the columns before it than
the first and the last coefficient of `a` allow.
-/

namespace PolynomialEquations

open Matrix Polynomial

variable {K : Type} [RCLike K]

/-- The banded matrix has at least as many rows as columns. -/
theorem cols_le_rows_toeplitz {a : Poly K} (ha : a.IsOrdinary) (c : ℕ) :
    (toeplitz a c).cols ≤ (toeplitz a c).rows := by
  rw [cols_toeplitz, rows_toeplitz, ha.size_coef]
  omega

/-- The matrix maps a vector to one that is as long as the product with `a`. -/
theorem sum_norm_toeplitz_mulVec (a : Poly K) {c : ℕ} (v : Fin c → K) :
    ∑ i, ‖((toeplitz a c).toMatrix (toeplitz a c).rows c *ᵥ v) i‖ ^ 2 =
      coefficientNorm (a.toPolynomial * vectorPolynomial (Array.ofFn v)) ^ 2 := by
  have hproduct := vectorPolynomial_mulVec_toeplitz a (Array.ofFn v)
  have hcoordinates := Mat.coordinates_mulVec (toeplitz a c) (Array.ofFn v)
  rw [Array.size_ofFn] at hproduct
  rw [cols_toeplitz, coordinates_ofFn] at hcoordinates
  rw [← hproduct, coefficientNorm_vectorPolynomial, euclideanNorm_sq, Mat.size_mulVec,
    ← Fin.sum_univ_eq_sum_range
      (fun i => ‖((toeplitz a c).mulVec (Array.ofFn v)).getD i 0‖ ^ 2), ← hcoordinates]
  rfl

/-- Every column of the banded matrix is as long as the vector of coefficients. -/
theorem sum_norm_toeplitz_col (a : Poly K) {c j : ℕ} (hj : j < c) :
    ∑ i ∈ Finset.range (toeplitz a c).rows, ‖(toeplitz a c).get i j‖ ^ 2 =
      euclideanNorm a.coef ^ 2 := by
  have hrows : (toeplitz a c).rows = j + (a.coef.size + (c - 1 - j)) := by
    rw [rows_toeplitz]
    omega
  have hbefore : ∀ i ∈ Finset.range j, ‖(toeplitz a c).get i j‖ ^ 2 = 0 := by
    intro i hi
    rw [Finset.mem_range] at hi
    rw [get_toeplitz a hj, if_neg (by omega), norm_zero, zero_pow two_ne_zero]
  have hfrom : ∀ i, (toeplitz a c).get (j + i) j = a.coef.getD i 0 := by
    intro i
    rw [get_toeplitz a hj, if_pos (by omega), Nat.add_sub_cancel_left, Poly.coeff_toPolynomial]
  have hafter : ∀ i ∈ Finset.range (c - 1 - j),
      ‖(toeplitz a c).get (j + (a.coef.size + i)) j‖ ^ 2 = 0 := by
    intro i _
    rw [hfrom, getD_of_size_le (by omega), norm_zero, zero_pow two_ne_zero]
  rw [hrows, Finset.sum_range_add, Finset.sum_range_add, Finset.sum_eq_zero hbefore,
    Finset.sum_eq_zero hafter, zero_add, add_zero, euclideanNorm_sq]
  exact Finset.sum_congr rfl fun i _ => by rw [hfrom]

/-- The Frobenius norm of the banded matrix. -/
theorem frobeniusNorm_toeplitz (a : Poly K) (c : ℕ) :
    (toeplitz a c).frobeniusNorm = √c * euclideanNorm a.coef := by
  have hsize : (toeplitz a c).entries.size = (toeplitz a c).rows * (toeplitz a c).cols :=
    Array.size_ofFn
  refine (pow_left_inj₀ (euclideanNorm_nonneg _)
    (mul_nonneg (Real.sqrt_nonneg _) (euclideanNorm_nonneg _)) two_ne_zero).mp ?_
  have hfrobenius := Mat.frobeniusNorm_sq hsize
  rw [Finset.sum_comm, cols_toeplitz, Finset.sum_congr rfl fun j hj =>
    sum_norm_toeplitz_col a (Finset.mem_range.mp hj), Finset.sum_const, Finset.card_range,
    nsmul_eq_mul] at hfrobenius
  rw [mul_pow, Real.sq_sqrt (Nat.cast_nonneg c), ← hfrobenius]
  rfl

/-- A combination of a column with the columns before it stands for a monic polynomial. -/
theorem monic_vectorPolynomial {c : ℕ} {j : Fin c} {v : Fin c → K} (hvj : v j = 1)
    (hvlater : ∀ k, j < k → v k = 0) :
    (vectorPolynomial (Array.ofFn v)).Monic ∧
      (vectorPolynomial (Array.ofFn v)).natDegree = j := by
  have hcoeff : ∀ k : Fin c, (vectorPolynomial (Array.ofFn v)).coeff k = v k := by
    intro k
    rw [coeff_vectorPolynomial, getD_ofFn, dif_pos k.isLt]
  have hdegree : (vectorPolynomial (Array.ofFn v)).natDegree ≤ j := by
    rw [natDegree_le_iff_coeff_eq_zero]
    intro k hk
    by_cases hkc : k < c
    · exact (hcoeff ⟨k, hkc⟩).trans (hvlater ⟨k, hkc⟩ hk)
    · rw [coeff_vectorPolynomial, getD_of_size_le (by rw [Array.size_ofFn]; omega)]
  have hone := (hcoeff j).trans hvj
  exact ⟨monic_of_natDegree_le_of_coeff_eq_one j hdegree hone,
    natDegree_eq_of_le_of_coeff_ne_zero hdegree (by rw [hone]; exact one_ne_zero)⟩

/-- A monic polynomial stands for a combination of a column with the columns before it. -/
theorem exists_vectorPolynomial_ofFn_eq {c : ℕ} {p : K[X]} (hp : p.Monic) {j : Fin c}
    (hdegree : p.natDegree = j) :
    ∃ v : Fin c → K, v j = 1 ∧ (∀ k, j < k → v k = 0) ∧ vectorPolynomial (Array.ofFn v) = p := by
  refine ⟨fun k => p.coeff k, ?_, fun k hk => ?_, ?_⟩
  · exact (congrArg p.coeff hdegree.symm).trans hp.coeff_natDegree
  · exact coeff_eq_zero_of_natDegree_lt (hdegree.trans_lt hk)
  · ext k
    rw [coeff_vectorPolynomial, getD_ofFn]
    split
    · rfl
    · exact (coeff_eq_zero_of_natDegree_lt (by omega)).symm

/-- A column of the banded matrix is at least as far from the span of the columns before it as the
first and the last coefficient are from zero. -/
theorem columnsApart_toeplitz (a : Poly K) (c : ℕ) :
    ColumnsApart ((toeplitz a c).toMatrix (toeplitz a c).rows c)
      (max ‖a.toPolynomial.coeff 0‖ ‖a.toPolynomial.leadingCoeff‖) := by
  intro j v hvj hvlater
  rw [sum_norm_toeplitz_mulVec]
  exact pow_le_pow_left₀ (le_max_of_le_left (norm_nonneg _))
    (le_coefficientNorm_mul_monic _ (monic_vectorPolynomial hvj hvlater).1) 2

end PolynomialEquations
