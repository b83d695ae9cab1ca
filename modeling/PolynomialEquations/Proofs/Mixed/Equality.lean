import PolynomialEquations.Mixed.Transform
import PolynomialEquations.Proofs.Mixed.Basic
import PolynomialEquations.Proofs.Poly.CircleConjugation
import PolynomialEquations.Proofs.Poly.Equality

/-!
# Comparison of mixed polynomials

Polynomials of either kind over the real or the complex numbers are compared by their stored
windows. Equal coefficients make them count as equal, except that an ordinary and a Laurent
polynomial other than zero must also have a constant term. So an ordinary polynomial without a
constant term differs from its own Laurent form.
-/

namespace PolynomialEquations

namespace MixedPoly

variable {a b : MixedPoly ℝ ℂ}

theorem variant_toLaurent (a : MixedPoly ℝ ℂ) : a.toLaurent.variant = .laurent := by
  cases a <;> exact Poly.variant_toLaurent _

theorem variant_circleConj (a : MixedPoly ℝ ℂ) : a.circleConj.variant = .laurent := by
  cases a <;> exact Poly.variant_circleConj _

/-- The Laurent form has the same coefficients. -/
theorem coeff_toLaurent (a : MixedPoly ℝ ℂ) (k : ℤ) : a.toLaurent.coeff k = a.coeff k := by
  cases a with
  | real p =>
    change (real p.toLaurent : MixedPoly ℝ ℂ).coeff k = _
    simp only [coeff_real, Poly.coeff_toLaurent]
  | complex p => exact Poly.coeff_toLaurent p k

namespace Trimmed

theorem toLaurent (ha : a.Trimmed) : a.toLaurent.Trimmed := by
  cases a <;> exact Poly.Trimmed.toLaurent ha

theorem circleConj (a : MixedPoly ℝ ℂ) : a.circleConj.Trimmed := by
  cases a <;> exact Poly.trimmed_circleConj _

/-- Conjugating twice across the unit circle keeps the coefficients. -/
theorem coeff_circleConj_circleConj (ha : a.Trimmed) (k : ℤ) :
    a.circleConj.circleConj.coeff k = a.coeff k := by
  cases a with
  | real p =>
    change (real p.circleConj.circleConj : MixedPoly ℝ ℂ).coeff k = _
    simp only [coeff_real, Poly.Trimmed.coeff_circleConj_circleConj ha]
  | complex p => exact Poly.Trimmed.coeff_circleConj_circleConj ha k

end Trimmed

/-- A polynomial counts as zero exactly when its coefficients are zero. -/
theorem isZero_iff_coeff (a : MixedPoly ℝ ℂ) : a.isZero = true ↔ ∀ k, a.coeff k = 0 := by
  cases a with
  | real p =>
    change p.isZero = true ↔ _
    rw [Poly.isZero_iff_coeff]
    exact forall_congr' fun k => by rw [coeff_real, Complex.ofReal_eq_zero]
  | complex p => exact Poly.isZero_iff_coeff p

/-- A polynomial other than zero is one with a coefficient other than zero. -/
theorem isZero_eq_false_iff (a : MixedPoly ℝ ℂ) : a.isZero = false ↔ ∃ k, a.coeff k ≠ 0 := by
  rw [← Bool.not_eq_true, isZero_iff_coeff, not_forall]

/-- Trimmed polynomials count as equal exactly when they have the same coefficients at every
exponent, and are zero, of one kind, or not zero at exponent zero. -/
theorem Trimmed.equal_iff (ha : a.Trimmed) (hb : b.Trimmed) :
    a.equal b = true ↔ (∀ k, a.coeff k = b.coeff k) ∧
      (a.isZero = true ∨ a.variant = b.variant ∨ a.coeff 0 ≠ 0) := by
  have hmixed : ∀ {p q : MixedPoly ℝ ℂ}, p.Trimmed → q.Trimmed →
      (p.toComplex.equal q.toComplex = true ↔ (∀ k, p.coeff k = q.coeff k) ∧
        (p.isZero = true ∨ p.variant = q.variant ∨ p.coeff 0 ≠ 0)) := by
    intro p q hp hq
    rw [hp.toComplex.equal_iff hq.toComplex, variant_toComplex, variant_toComplex,
      isZero_iff_coeff, Poly.isZero_iff_coeff]
    rfl
  cases a with
  | complex p => exact hmixed ha hb
  | real p =>
    cases b with
    | complex q => exact hmixed ha hb
    | real q =>
      change p.equal q = true ↔ _
      rw [Poly.Trimmed.equal_iff ha hb]
      simp only [coeff_real, Complex.ofReal_inj, Complex.ofReal_ne_zero]
      rfl

/-- A Laurent polynomial with the coefficients of an ordinary one counts as equal to it exactly when
they are zero or not zero at exponent zero. -/
theorem Trimmed.equal_ordinary_iff (ha : a.Trimmed) (hb : b.Trimmed)
    (hlaurent : a.variant = .laurent) (hordinary : b.variant = .ordinary)
    (h : ∀ k, a.coeff k = b.coeff k) :
    a.equal b = true ↔ b.isZero = true ∨ b.coeff 0 ≠ 0 := by
  have hkinds : a.variant ≠ b.variant := by
    rw [hlaurent, hordinary]
    exact Variant.noConfusion
  have hzero : a.isZero = true ↔ b.isZero = true := by
    rw [isZero_iff_coeff, isZero_iff_coeff]
    exact forall_congr' fun k => by rw [h]
  rw [ha.equal_iff hb, and_iff_right h, hzero, h, or_iff_right hkinds]

/-- Trimmed polynomials count as equal exactly when they have the same coefficients at every
exponent, and are zero, of one kind, or not zero at exponent zero. In particular an ordinary
polynomial equals its Laurent form, and what is left of it after conjugating twice across the unit
circle, exactly when it is zero or has a constant term. -/
theorem equal_across_kinds {a p : MixedPoly ℝ ℂ} (ha : a.Trimmed) (hp : p.Trimmed) :
    (a.equal p = true ↔ (∀ k, a.coeff k = p.coeff k) ∧
      (a.isZero = true ∨ a.variant = p.variant ∨ a.coeff 0 ≠ 0)) ∧
    (p.variant = .ordinary →
      (p.toLaurent.equal p = true ↔ p.isZero = true ∨ p.coeff 0 ≠ 0) ∧
      (p.circleConj.circleConj.equal p = true ↔ p.isZero = true ∨ p.coeff 0 ≠ 0)) := by
  refine ⟨ha.equal_iff hp, fun hordinary => ⟨?_, ?_⟩⟩
  · exact hp.toLaurent.equal_ordinary_iff hp (variant_toLaurent p) hordinary (coeff_toLaurent p)
  · exact (Trimmed.circleConj _).equal_ordinary_iff hp (variant_circleConj _) hordinary
      hp.coeff_circleConj_circleConj

/-- The polynomial `1 + s` equals its Laurent form. -/
theorem equal_across_kinds_linear :
    (real (Poly.ofCoef #[1, 1] "s") : MixedPoly ℝ ℂ).Trimmed ∧
      (real (Poly.ofCoef #[1, 1] "s") : MixedPoly ℝ ℂ).variant = .ordinary ∧
      (real (Poly.ofCoef #[1, 1] "s") : MixedPoly ℝ ℂ).toLaurent.Trimmed ∧
      (real (Poly.ofCoef #[1, 1] "s") : MixedPoly ℝ ℂ).toLaurent.equal
        (real (Poly.ofCoef #[1, 1] "s")) = true := by
  have htrimmed : (real (Poly.ofCoef #[1, 1] "s") : MixedPoly ℝ ℂ).Trimmed :=
    Poly.trimmed_ofCoef _ _
  have hordinary : (real (Poly.ofCoef #[1, 1] "s") : MixedPoly ℝ ℂ).variant = .ordinary :=
    Poly.variant_ofCoef _ _
  have hconstant : (real (Poly.ofCoef #[1, 1] "s") : MixedPoly ℝ ℂ).coeff 0 ≠ 0 := by
    rw [coeff_real, Poly.coeff_ofCoef]
    exact Complex.ofReal_ne_zero.mpr one_ne_zero
  exact ⟨htrimmed, hordinary, htrimmed.toLaurent,
    ((equal_across_kinds htrimmed.toLaurent htrimmed).2 hordinary).1.mpr (Or.inr hconstant)⟩

/-- The ordinary polynomial `s` and the Laurent polynomial `s` have the same coefficients and do not
count as equal, nor does the ordinary one equal its Laurent form. -/
theorem equal_overlooks_leading_zero :
    (∀ k, (real (Poly.ofCoef #[0, 1] "s") : MixedPoly ℝ ℂ).coeff k =
        (real (Poly.ofWindow 1 #[1] "s") : MixedPoly ℝ ℂ).coeff k) ∧
      (real (Poly.ofCoef #[0, 1] "s") : MixedPoly ℝ ℂ).equal (real (Poly.ofWindow 1 #[1] "s")) =
        false ∧
      (real (Poly.ofCoef #[0, 1] "s") : MixedPoly ℝ ℂ).toLaurent.equal
        (real (Poly.ofCoef #[0, 1] "s")) = false := by
  let p : MixedPoly ℝ ℂ := real (Poly.ofCoef #[0, 1] "s")
  let q : MixedPoly ℝ ℂ := real (Poly.ofWindow 1 #[1] "s")
  have hp : p.Trimmed := Poly.trimmed_ofCoef _ _
  have hq : q.Trimmed := Poly.trimmed_ofWindow _ _ _
  have hordinary : p.variant = .ordinary := Poly.variant_ofCoef _ _
  have hlaurent : q.variant = .laurent := Poly.variant_assemble .laurent 1 #[(1 : ℝ)] "s"
  have hwindow : ∀ k, p.coeff k = (windowCoeff 0 #[(0 : ℝ), 1] k : ℝ) := fun k => by
    rw [coeff_real, Poly.coeff_ofCoef]
  have hcoeff : ∀ k, p.coeff k = q.coeff k := by
    intro k
    rw [hwindow, coeff_real, Poly.coeff_ofWindow]
    unfold windowCoeff
    rcases lt_trichotomy k 0 with hk | rfl | hk
    · rw [if_neg (by omega), if_neg (by omega)]
    · rfl
    · have hindex : (k - 0).toNat = (k - 1).toNat + 1 := by omega
      rw [if_pos (by omega), if_pos (by omega), hindex]
      cases (k - 1).toNat with
      | zero => rfl
      | succ n => rw [getD_of_size_le (by simp), getD_of_size_le (by simp)]
  have hcondition : ¬(p.isZero = true ∨ p.coeff 0 ≠ 0) := by
    rintro (hzero | hconstant)
    · have hone := (isZero_iff_coeff p).mp hzero 1
      rw [hwindow] at hone
      exact one_ne_zero (Complex.ofReal_eq_zero.mp hone)
    · rw [hwindow] at hconstant
      exact hconstant Complex.ofReal_zero
  have hkinds : p.variant ≠ q.variant := by
    rw [hordinary, hlaurent]
    exact Variant.noConfusion
  refine ⟨hcoeff, ?_, ?_⟩
  · rw [← Bool.not_eq_true, hp.equal_iff hq, or_iff_right hkinds]
    exact fun h => hcondition h.2
  · rw [← Bool.not_eq_true, hp.toLaurent.equal_ordinary_iff hp (variant_toLaurent p) hordinary
      (coeff_toLaurent p)]
    exact hcondition

end MixedPoly

end PolynomialEquations
