import PolynomialEquations.Proofs.Kernel.Exact
import PolynomialEquations.Proofs.Poly.Meaning

/-!
# The 2-norm of a polynomial

The 2-norm of the coefficients of a polynomial is a finite sum over any range that holds all of
them, so it is the 2-norm of every stored vector that stands for the polynomial, and the residual of
a system of linear equations is the 2-norm of a difference of polynomials.
-/

namespace PolynomialEquations

open Polynomial

variable {K : Type} [RCLike K]

/-- The 2-norm of the coefficients. -/
noncomputable def coefficientNorm (p : K[X]) : ℝ := √(∑ i ∈ p.support, ‖p.coeff i‖ ^ 2)

theorem coefficientNorm_nonneg (p : K[X]) : 0 ≤ coefficientNorm p := Real.sqrt_nonneg _

@[simp] theorem coefficientNorm_zero : coefficientNorm (0 : K[X]) = 0 := by
  simp [coefficientNorm]

/-- A sum over the exponents with coefficients other than zero is one over all exponents below a
bound of the degree. -/
theorem sum_support_eq_sum_range {p : K[X]} {m : ℕ} (hp : p.degree < (m : WithBot ℕ)) {f : K → ℝ}
    (hf : f 0 = 0) : ∑ i ∈ p.support, f (p.coeff i) = ∑ i ∈ Finset.range m, f (p.coeff i) := by
  refine p.sum_eq_of_subset (fun _ => f) (fun _ => hf) fun i hi => ?_
  rw [Finset.mem_range]
  by_contra hle
  exact mem_support_iff.mp hi ((degree_lt_iff_coeff_zero p m).mp hp i (by omega))

/-- The squared 2-norm as a sum over all exponents below a bound of the degree. -/
theorem coefficientNorm_sq {p : K[X]} {m : ℕ} (hp : p.degree < (m : WithBot ℕ)) :
    coefficientNorm p ^ 2 = ∑ i ∈ Finset.range m, ‖p.coeff i‖ ^ 2 := by
  rw [coefficientNorm, Real.sq_sqrt (Finset.sum_nonneg fun i _ => sq_nonneg _)]
  exact sum_support_eq_sum_range hp (f := fun x => ‖x‖ ^ 2) (by simp)

/-- Only the zero polynomial has no length. -/
theorem coefficientNorm_eq_zero_iff {p : K[X]} : coefficientNorm p = 0 ↔ p = 0 := by
  refine ⟨fun h => ?_, fun h => by rw [h, coefficientNorm_zero]⟩
  rw [coefficientNorm, Real.sqrt_eq_zero (Finset.sum_nonneg fun i _ => sq_nonneg _),
    Finset.sum_eq_zero_iff_of_nonneg fun i _ => sq_nonneg _] at h
  refine support_eq_empty.mp (Finset.eq_empty_of_forall_notMem fun i hi => ?_)
  have hterm := h i hi
  rw [sq_eq_zero_iff, norm_eq_zero] at hterm
  exact mem_support_iff.mp hi hterm

/-- The 2-norm depends only on the moduli of the coefficients. -/
theorem coefficientNorm_congr {p q : K[X]} (h : ∀ i, ‖p.coeff i‖ = ‖q.coeff i‖) :
    coefficientNorm p = coefficientNorm q := by
  have hsupport : p.support = q.support := by
    ext i
    rw [mem_support_iff, mem_support_iff, ← norm_ne_zero_iff, h, norm_ne_zero_iff]
  simp only [coefficientNorm, hsupport, h]

/-- The 2-norm of a stored vector is that of its polynomial. -/
theorem coefficientNorm_vectorPolynomial (v : Array K) :
    coefficientNorm (vectorPolynomial v) = euclideanNorm v := by
  refine (pow_left_inj₀ (coefficientNorm_nonneg _) (euclideanNorm_nonneg v) two_ne_zero).mp ?_
  rw [coefficientNorm_sq (degree_vectorPolynomial_lt le_rfl), euclideanNorm_sq]
  simp only [coeff_vectorPolynomial]

/-- Vectors that read the same have the same 2-norm. -/
theorem euclideanNorm_congr {u v : Array K} (h : ∀ i, u.getD i 0 = v.getD i 0) :
    (euclideanNorm u : ℝ) = euclideanNorm v := by
  rw [← coefficientNorm_vectorPolynomial, ← coefficientNorm_vectorPolynomial,
    vectorPolynomial_congr h]

/-- The squared 2-norms of two vectors add up when one is put behind the other. -/
theorem euclideanNorm_append_sq (u v : Array K) :
    (euclideanNorm (u ++ v) : ℝ) ^ 2 = euclideanNorm u ^ 2 + euclideanNorm v ^ 2 := by
  simp only [euclideanNorm_sq, Array.size_append, Finset.sum_range_add]
  congr 1
  · refine Finset.sum_congr rfl fun i hi => ?_
    rw [getD_append, if_pos (Finset.mem_range.mp hi)]
  · refine Finset.sum_congr rfl fun i _ => ?_
    rw [getD_append, if_neg (by omega), Nat.add_sub_cancel_left]

/-- A vector cut into two segments has the squared 2-norms of both together. -/
theorem euclideanNorm_extract_sq (v : Array K) {w : ℕ} (hw : w ≤ v.size) :
    (euclideanNorm v : ℝ) ^ 2 =
      euclideanNorm (v.extract 0 w) ^ 2 + euclideanNorm (v.extract w v.size) ^ 2 := by
  rw [← euclideanNorm_append_sq, Array.extract_append_extract, min_eq_left (Nat.zero_le w),
    max_eq_right hw, Array.extract_size]

/-- The residual of a system is the 2-norm of the polynomial that is left of its right side. -/
theorem residualNorm_eq_coefficientNorm {S : Mat K} {rhs : Array K} (hrhs : rhs.size = S.rows)
    (v : Array K) : residualNorm S rhs v =
      coefficientNorm (vectorPolynomial (S.mulVec v) - vectorPolynomial rhs) := by
  have hdegree : (vectorPolynomial (S.mulVec v) - vectorPolynomial rhs).degree <
      (S.rows : WithBot ℕ) :=
    lt_of_le_of_lt (degree_sub_le _ _) (max_lt
      (degree_vectorPolynomial_lt (Mat.size_mulVec S v).le) (degree_vectorPolynomial_lt hrhs.le))
  rw [← Real.sqrt_sq (coefficientNorm_nonneg _), coefficientNorm_sq hdegree, residualNorm]
  congr 1
  refine Finset.sum_congr rfl fun i _ => ?_
  rw [coeff_sub, coeff_vectorPolynomial, coeff_vectorPolynomial]

end PolynomialEquations
