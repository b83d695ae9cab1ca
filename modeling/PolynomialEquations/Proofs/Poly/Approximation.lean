import PolynomialEquations.Poly.Comparison
import PolynomialEquations.Proofs.Poly.Norm
import Mathlib.Analysis.InnerProductSpace.PiL2
import Mathlib.RingTheory.LittleWedderburn

/-!
# Approximate equality of polynomials

The 2-norm of a stored vector is that of the coefficients at all integer exponents, however they are
stored. So approximate equality compares coefficients at the same exponents. Without a relative
tolerance the 2-norm of the difference is at most the absolute tolerance; it vanishes exactly when
the coefficients agree, so polynomials that are approximately equal for every positive tolerance
have the same coefficients.
-/

namespace PolynomialEquations

variable {K : Type} [RCLike K]

section ExponentNorm

variable {f g h : ℤ → K}

/-- The 2-norm of the values at all integer exponents. -/
noncomputable def exponentNorm (f : ℤ → K) : ℝ := √(∑ᶠ k, ‖f k‖ ^ 2)

@[simp] theorem exponentNorm_zero : exponentNorm (0 : ℤ → K) = 0 := by
  simp [exponentNorm]

theorem exponentNorm_nonneg (f : ℤ → K) : 0 ≤ exponentNorm f := Real.sqrt_nonneg _

/-- The 2-norm of a single value. -/
theorem exponentNorm_single (n : ℤ) (x : K) : exponentNorm (Pi.single n x) = ‖x‖ := by
  rw [exponentNorm, finsum_eq_single _ n, Pi.single_eq_same, Real.sqrt_sq (norm_nonneg x)]
  intro k hk
  rw [Pi.single_eq_of_ne hk, norm_zero, zero_pow two_ne_zero]

/-- A window has the 2-norm of its entries. -/
theorem exponentNorm_windowCoeff (first : ℤ) (c : Array K) :
    exponentNorm (windowCoeff first c) = euclideanNorm c := by
  have hwindow : ∀ k, ‖windowCoeff first c k‖ ^ 2 ≠ 0 → first ≤ k ∧ k < first + c.size := by
    intro k hk
    by_contra hout
    refine hk ?_
    rw [pow_eq_zero_iff two_ne_zero, norm_eq_zero, windowCoeff]
    split
    · exact getD_of_size_le (by omega)
    · rfl
  rw [euclideanNorm_eq_sqrt, exponentNorm, finsum_eq_sum_window hwindow]
  simp [windowCoeff]

/-- The first entry of a window stands at its first exponent, the others follow. -/
theorem windowCoeff_cons (first : ℤ) (x : K) (l : List K) :
    windowCoeff first (x :: l).toArray = Pi.single first x + windowCoeff (first + 1) l.toArray := by
  funext k
  rw [Pi.add_apply, Pi.single_apply, windowCoeff, windowCoeff]
  rcases lt_trichotomy k first with hlt | rfl | hgt
  · simp [hlt.ne, hlt.not_ge, (hlt.trans (lt_add_one first)).not_ge]
  · simp
  · have hindex : (k - first).toNat = (k - (first + 1)).toNat + 1 := by omega
    simp [hgt.ne', hgt.le, Int.add_one_le_iff.mpr hgt, hindex]

theorem windowCoeff_nil (first : ℤ) : windowCoeff first (#[] : Array K) = 0 := by
  funext k
  simp [windowCoeff]

/-- The order of a difference does not matter. -/
theorem exponentNorm_sub_comm (f g : ℤ → K) : exponentNorm (f - g) = exponentNorm (g - f) := by
  simp only [exponentNorm, Pi.sub_apply, norm_sub_rev]

/-- The exponent from which the values are counted does not matter. -/
theorem exponentNorm_shift (f : ℤ → K) (n : ℤ) :
    exponentNorm (fun k => f (k - n)) = exponentNorm f :=
  congrArg Real.sqrt (finsum_comp_equiv (f := fun k => ‖f k‖ ^ 2) (Equiv.subRight n))

/-- Finitely many values make up a vector of that length. -/
theorem exponentNorm_eq_norm {s : Finset ℤ} (hf : ∀ k, f k ≠ 0 → k ∈ s) :
    exponentNorm f = ‖(WithLp.toLp 2 fun k : s => f k : EuclideanSpace K s)‖ := by
  rw [EuclideanSpace.norm_eq, exponentNorm, finsum_eq_sum_of_support_subset (s := s),
    ← Finset.sum_coe_sort]
  intro k hk
  exact hf k (norm_ne_zero_iff.mp ((pow_ne_zero_iff two_ne_zero).mp hk))

/-- Going through a third function is no shorter. -/
theorem exponentNorm_sub_le (hf : f.support.Finite) (hg : g.support.Finite)
    (hh : h.support.Finite) :
    exponentNorm (f - h) ≤ exponentNorm (f - g) + exponentNorm (g - h) := by
  let s := hf.toFinset ∪ hg.toFinset ∪ hh.toFinset
  have hmem : ∀ {k}, k ∉ s → f k = 0 ∧ g k = 0 ∧ h k = 0 := by
    intro k hk
    simp only [s, Finset.mem_union, Set.Finite.mem_toFinset, Function.mem_support] at hk
    tauto
  rw [exponentNorm_eq_norm (f := f - h) (s := s), exponentNorm_eq_norm (f := f - g) (s := s),
    exponentNorm_eq_norm (f := g - h) (s := s)]
  · exact norm_sub_le_norm_sub_add_norm_sub (WithLp.toLp 2 fun k : s => f k)
      (WithLp.toLp 2 fun k : s => g k) (WithLp.toLp 2 fun k : s => h k)
  all_goals
    intro k hk
    by_contra hout
    obtain ⟨hfk, hgk, hhk⟩ := hmem hout
    simp [hfk, hgk, hhk] at hk

/-- Real values have the same 2-norm as complex numbers. -/
theorem exponentNorm_ofReal (f : ℤ → ℝ) : exponentNorm (fun k => (f k : ℂ)) = exponentNorm f := by
  simp only [exponentNorm, Complex.norm_real]

end ExponentNorm

namespace Poly

variable {a b : Poly K}

/-- The 2-norm of the stored vector is that of the coefficients. -/
theorem euclideanNorm_coef (a : Poly K) : (euclideanNorm a.coef : ℝ) = exponentNorm a.coeff :=
  (exponentNorm_windowCoeff a.first a.coef).symm

/-- Approximate equality compares the coefficients at the same exponents. -/
theorem isApprox_iff (a b : Poly K) (rtol atol : ℝ) :
    a.isApprox b rtol atol = true ↔ exponentNorm (a.coeff - b.coeff) ≤
      atol + rtol * max (exponentNorm a.coeff) (exponentNorm b.coeff) := by
  have hdifference : (a - b).coeff = a.coeff - b.coeff := funext (coeff_sub a b)
  rw [isApprox, decide_eq_true_iff, euclideanNorm_coef, euclideanNorm_coef, euclideanNorm_coef,
    hdifference, max_def_lt]

/-- Without a relative tolerance the 2-norm of the difference is compared with the absolute one. -/
theorem isApprox_absolute_iff (a b : Poly K) (tol : ℝ) :
    a.isApprox b 0 tol = true ↔ euclideanNorm (a - b).coef ≤ tol := by
  rw [isApprox, decide_eq_true_iff, zero_mul, add_zero]

/-- Only the zero polynomial has no length. -/
theorem euclideanNorm_coef_eq_zero_iff (a : Poly K) :
    (euclideanNorm a.coef : ℝ) = 0 ↔ ∀ k, a.coeff k = 0 := by
  rw [← coefficientNorm_vectorPolynomial, coefficientNorm_eq_zero_iff, ← isZero_iff_coeff]
  exact (isZero_iff a).symm

/-- The coefficients agree exactly when the polynomials are approximately equal for every positive
tolerance. -/
theorem coeff_eq_iff_isApprox :
    (∀ k, a.coeff k = b.coeff k) ↔ ∀ tol : ℝ, 0 < tol → a.isApprox b 0 tol = true := by
  have hdifference : (∀ k, a.coeff k = b.coeff k) ↔ (euclideanNorm (a - b).coef : ℝ) = 0 := by
    rw [euclideanNorm_coef_eq_zero_iff]
    exact forall_congr' fun k => by rw [coeff_sub, sub_eq_zero]
  simp only [isApprox_absolute_iff, hdifference]
  constructor
  · intro h tol htol
    rw [h]
    exact htol.le
  · intro h
    refine le_antisymm (le_of_forall_pos_le_add fun tol htol => ?_) (euclideanNorm_nonneg _)
    rw [zero_add]
    exact h tol htol

end Poly

end PolynomialEquations
