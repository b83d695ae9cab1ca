import PolynomialEquations.Poly.Comparison
import PolynomialEquations.Proofs.Poly.NormalForm

/-!
# Exact comparison

The comparison looks at the stored windows. Trimmed polynomials with the same coefficients therefore
count as equal when they are zero or of one kind, and across kinds only when there is a constant
term: zeros at the start of an ordinary polynomial are not trimmed.
-/

namespace PolynomialEquations

namespace Poly

variable {K : Type} [Zero K] [BEq K] [LawfulBEq K] {a b : Poly K}

/-- Polynomials that count as equal have the same coefficients. -/
theorem coeff_eq_of_equal (h : a.equal b = true) (k : ℤ) : a.coeff k = b.coeff k := by
  unfold equal at h
  split at h
  · rw [Bool.and_eq_true, isZero_iff_coeff, isZero_iff_coeff] at h
    rw [h.1, h.2]
  · rw [Bool.and_eq_true, beq_iff_eq, beq_iff_eq] at h
    rw [coeff_eq_windowCoeff, coeff_eq_windowCoeff, h.1, h.2]

/-- Trimmed polynomials count as equal exactly when they have the same coefficients at every
exponent, and are zero, of one kind, or not zero at exponent zero. -/
theorem Trimmed.equal_iff (ha : a.Trimmed) (hb : b.Trimmed) :
    a.equal b = true ↔ (∀ k, a.coeff k = b.coeff k) ∧
      (a.isZero = true ∨ a.variant = b.variant ∨ a.coeff 0 ≠ 0) := by
  constructor
  · intro h
    have hcoeff := coeff_eq_of_equal h
    refine ⟨hcoeff, or_iff_not_imp_left.mpr fun hzero => ?_⟩
    have hazero : a.isZero = false := by simpa using hzero
    have hbzero : b.isZero = false := isZero_congr hcoeff ▸ hazero
    rw [← ha.first_eq_iff hb hcoeff hazero]
    simp only [equal, hazero, hbzero, Bool.or_self, Bool.false_eq_true, if_false,
      Bool.and_eq_true, beq_iff_eq] at h
    exact h.1
  · rintro ⟨hcoeff, hcase⟩
    unfold equal
    rw [← isZero_congr hcoeff, Bool.or_self, Bool.and_self]
    cases hzero : a.isZero with
    | true => rfl
    | false =>
      have hfirst := (ha.first_eq_iff hb hcoeff hzero).mpr (hcase.resolve_left (by simp [hzero]))
      have hcoef := ha.coef_eq_of_first_eq hb hfirst hcoeff
      simp [hfirst, hcoef]

/-- Trimmed polynomials of one kind count as equal exactly when they have the same coefficients at
every exponent. -/
theorem Trimmed.equal_iff_of_variant_eq (ha : a.Trimmed) (hb : b.Trimmed)
    (hvariant : a.variant = b.variant) :
    a.equal b = true ↔ ∀ k, a.coeff k = b.coeff k := by
  rw [ha.equal_iff hb]
  exact and_iff_left (Or.inr (Or.inl hvariant))

end Poly

end PolynomialEquations
