import PolynomialEquations.Proofs.Mixed.Arithmetic
import PolynomialEquations.Proofs.Mixed.Equality
import PolynomialEquations.Proofs.Mixed.Transform
import PolynomialEquations.Proofs.Poly.Approximation

/-!
# Approximate equality of mixed polynomials

Approximate equality of polynomials of either kind over the real or the complex numbers looks at the
complex coefficients alone. So, other than exact equality, it does not tell an ordinary polynomial
from its Laurent form; it is symmetric, does not change when both polynomials are shifted, and the
absolute tolerances of two comparisons add up.
-/

namespace PolynomialEquations

namespace MixedPoly

variable {a b c : MixedPoly ℝ ℂ} {rtol atol : ℝ}

/-- Approximate equality compares the complex coefficients at the same exponents. -/
theorem isApprox_iff (a b : MixedPoly ℝ ℂ) (rtol atol : ℝ) :
    a.isApprox b rtol atol = true ↔ exponentNorm (a.coeff - b.coeff) ≤
      atol + rtol * max (exponentNorm a.coeff) (exponentNorm b.coeff) := by
  have hmixed : ∀ p q : MixedPoly ℝ ℂ, p.toComplex.isApprox q.toComplex rtol atol = true ↔
      exponentNorm (p.coeff - q.coeff) ≤
        atol + rtol * max (exponentNorm p.coeff) (exponentNorm q.coeff) :=
    fun p q => Poly.isApprox_iff p.toComplex q.toComplex rtol atol
  cases a with
  | complex p => exact hmixed (complex p) b
  | real p =>
    cases b with
    | complex q => exact hmixed (real p) (complex q)
    | real q =>
      have hdifference : (real p : MixedPoly ℝ ℂ).coeff - (real q : MixedPoly ℝ ℂ).coeff =
          fun k => (((p.coeff - q.coeff) k : ℝ) : ℂ) := by
        funext k
        rw [Pi.sub_apply, Pi.sub_apply, coeff_real, coeff_real, Complex.ofReal_sub]
      rw [hdifference, funext (coeff_real p), funext (coeff_real q), exponentNorm_ofReal,
        exponentNorm_ofReal, exponentNorm_ofReal]
      exact Poly.isApprox_iff p q rtol atol

/-- Without a relative tolerance the 2-norm of the difference is compared with the absolute one. -/
theorem isApprox_absolute_iff (a b : MixedPoly ℝ ℂ) (tol : ℝ) :
    a.isApprox b 0 tol = true ↔ exponentNorm (a.coeff - b.coeff) ≤ tol := by
  rw [isApprox_iff, zero_mul, add_zero]

/-- How the coefficients are stored does not matter. -/
theorem isApprox_congr {a' b' : MixedPoly ℝ ℂ} (ha : a.coeff = a'.coeff) (hb : b.coeff = b'.coeff)
    (rtol atol : ℝ) : a.isApprox b rtol atol = a'.isApprox b' rtol atol := by
  rw [Bool.eq_iff_iff, isApprox_iff, isApprox_iff, ha, hb]

/-- The two polynomials can be exchanged. -/
theorem isApprox_comm (a b : MixedPoly ℝ ℂ) (rtol atol : ℝ) :
    a.isApprox b rtol atol = b.isApprox a rtol atol := by
  rw [Bool.eq_iff_iff, isApprox_iff, isApprox_iff, exponentNorm_sub_comm, max_comm]

/-- Both polynomials can be shifted by the same exponent. -/
theorem isApprox_shift (n : ℤ) (a b : MixedPoly ℝ ℂ) (rtol atol : ℝ) :
    (a.shift n).isApprox (b.shift n) rtol atol = a.isApprox b rtol atol := by
  have hdifference : (a.shift n).coeff - (b.shift n).coeff =
      fun k => (a.coeff - b.coeff) (k - n) := by
    funext k
    rw [Pi.sub_apply, coeff_shift, coeff_shift, Pi.sub_apply]
  rw [Bool.eq_iff_iff, isApprox_iff, isApprox_iff, hdifference, funext (coeff_shift n a),
    funext (coeff_shift n b), exponentNorm_shift, exponentNorm_shift, exponentNorm_shift]

/-- Polynomials with the same coefficients are approximately equal. -/
theorem isApprox_of_coeff_eq (hrtol : 0 ≤ rtol) (hatol : 0 ≤ atol)
    (h : ∀ k, a.coeff k = b.coeff k) : a.isApprox b rtol atol = true := by
  rw [isApprox_iff, funext h, sub_self, exponentNorm_zero, max_self]
  exact add_nonneg hatol (mul_nonneg hrtol (exponentNorm_nonneg _))

/-- The absolute tolerances of two comparisons add up. -/
theorem isApprox_trans {s t : ℝ} (hab : a.isApprox b 0 s = true) (hbc : b.isApprox c 0 t = true) :
    a.isApprox c 0 (s + t) = true := by
  rw [isApprox_absolute_iff] at hab hbc ⊢
  exact (exponentNorm_sub_le a.finite_support_coeff b.finite_support_coeff
    c.finite_support_coeff).trans (add_le_add hab hbc)

/-- Two polynomials are approximately equal exactly when the 2-norm of the difference of their
coefficients, over all integer exponents, is at most the absolute tolerance plus the relative one
times the larger 2-norm. So the order of the two, the Laurent form of either one and a common shift
make no difference, equal coefficients are enough, and absolute tolerances add up. -/
theorem isApprox_laws (hrtol : 0 ≤ rtol) (hatol : 0 ≤ atol) (a b : MixedPoly ℝ ℂ) :
    (a.isApprox b rtol atol = true ↔ √(∑ᶠ k, ‖a.coeff k - b.coeff k‖ ^ 2) ≤
      atol + rtol * max (√(∑ᶠ k, ‖a.coeff k‖ ^ 2)) (√(∑ᶠ k, ‖b.coeff k‖ ^ 2))) ∧
    a.isApprox b rtol atol = b.isApprox a rtol atol ∧
    a.toLaurent.isApprox b rtol atol = a.isApprox b rtol atol ∧
    a.isApprox b.toLaurent rtol atol = a.isApprox b rtol atol ∧
    (∀ n, (a.shift n).isApprox (b.shift n) rtol atol = a.isApprox b rtol atol) ∧
    ((∀ k, a.coeff k = b.coeff k) → a.isApprox b rtol atol = true) ∧
    ∀ c s t, a.isApprox b 0 s = true → b.isApprox c 0 t = true →
      a.isApprox c 0 (s + t) = true := by
  refine ⟨isApprox_iff a b rtol atol, isApprox_comm a b rtol atol, ?_, ?_,
    fun n => isApprox_shift n a b rtol atol, isApprox_of_coeff_eq hrtol hatol,
    fun c s t => isApprox_trans⟩
  · exact isApprox_congr (funext (coeff_toLaurent a)) rfl rtol atol
  · exact isApprox_congr rfl (funext (coeff_toLaurent b)) rtol atol

/-- The real polynomial `3 s` and the complex Laurent polynomial `4 i / z + 3 z`, whose difference
has the one coefficient `-4 i`, are approximately equal with one half for the relative tolerance and
three halves for the absolute one, and with no smaller absolute one. -/
theorem isApprox_laws_windows :
    (0 : ℝ) ≤ 1 / 2 ∧ ∀ atol : ℝ, 0 ≤ atol →
      ((real (Poly.ofCoef #[0, 3] "s") : MixedPoly ℝ ℂ).isApprox
        (complex (Poly.ofWindow (-1) #[4 * Complex.I, 0, 3] "z")) (1 / 2) atol = true ↔
          3 / 2 ≤ atol) := by
  have hhalf : (0 : ℝ) ≤ 1 / 2 := by norm_num
  refine ⟨hhalf, fun atol hatol => ?_⟩
  let a : MixedPoly ℝ ℂ := real (Poly.ofCoef #[0, 3] "s")
  let b : MixedPoly ℝ ℂ := complex (Poly.ofWindow (-1) #[4 * Complex.I, 0, 3] "z")
  have hb : b.coeff = windowCoeff (-1) #[4 * Complex.I, 0, 3] :=
    funext (Poly.coeff_ofWindow (-1) _ "z")
  have ha : a.coeff = Pi.single 1 3 := by
    funext k
    rw [coeff_real, Poly.coeff_ofCoef, windowCoeff_cons, windowCoeff_cons, windowCoeff_nil,
      Pi.single_zero, zero_add, zero_add, add_zero, Pi.single_apply, Pi.single_apply,
      apply_ite Complex.ofReal, Complex.ofReal_ofNat, Complex.ofReal_zero]
  have hdifference : a.coeff - b.coeff = Pi.single (-1) (-(4 * Complex.I)) := by
    rw [ha, hb, windowCoeff_cons, windowCoeff_cons, windowCoeff_cons, windowCoeff_nil,
      Pi.single_zero, zero_add, add_zero, Pi.single_neg]
    exact sub_add_cancel_right _ _
  refine (isApprox_laws hhalf hatol a b).1.trans ?_
  change exponentNorm (a.coeff - b.coeff) ≤
    atol + 1 / 2 * max (exponentNorm a.coeff) (exponentNorm b.coeff) ↔ 3 / 2 ≤ atol
  have hfive : exponentNorm b.coeff = 5 := by
    rw [hb, exponentNorm_windowCoeff, euclideanNorm_eq_sqrt,
      Real.sqrt_eq_iff_mul_self_eq_of_pos (by norm_num)]
    norm_num [Finset.sum_range_succ]
  have hfour : ‖-(4 * Complex.I)‖ = 4 := by
    rw [norm_neg, norm_mul, Complex.norm_I, mul_one, RCLike.norm_ofNat]
  rw [hdifference, hfive, ha, exponentNorm_single, exponentNorm_single, hfour, RCLike.norm_ofNat,
    max_eq_right (by norm_num)]
  constructor <;> intro h <;> linarith

end MixedPoly

end PolynomialEquations
