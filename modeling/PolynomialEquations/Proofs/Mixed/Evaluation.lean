import PolynomialEquations.Mixed.Evaluation
import PolynomialEquations.Proofs.Mixed.Transform
import PolynomialEquations.Proofs.Poly.Evaluation

/-!
# Values of mixed polynomials

The value of a polynomial of either kind, with real or complex coefficients, at a real or complex
number is the sum of its coefficients times the powers of the number. A number that is zero needs a
polynomial without negative exponents. Since the sum depends on the coefficients alone, every
operation that is described by its coefficients is described by its values as well.
-/

namespace PolynomialEquations

namespace Poly

/-- A trimmed polynomial without coefficients at negative exponents starts at none of them. -/
theorem Trimmed.first_nonneg {K : Type} [Zero K] [BEq K] [LawfulBEq K] {a : Poly K}
    (ha : a.Trimmed) (h : ∀ k < 0, a.coeff k = 0) : 0 ≤ a.first := by
  by_contra hneg
  have hlaurent : a.variant = .laurent := by
    cases hkind : a.variant with
    | ordinary => exact absurd (first_nonneg_of_ordinary hkind) hneg
    | laurent => rfl
  cases hzero : a.isZero with
  | true => exact hneg (ha.eq_singleton hzero).1.ge
  | false => exact ha.coeff_first_ne_zero hlaurent hzero (h _ (by omega))

/-- The powers of a window sum to the value of its entries times the power at its start. -/
theorem powerSum_windowCoeff {K : Type} [Field K] {first : ℤ} {x : K} (h : x ≠ 0 ∨ 0 ≤ first)
    (c : Array K) :
    powerSum (windowCoeff first c) x = x ^ first * (vectorPolynomial c).eval x := by
  rw [← powerSum_shiftedCoeff h]
  congr 1
  funext k
  rw [windowCoeff, shiftedCoeff, coeff_vectorPolynomial]

end Poly

namespace MixedPoly

open Polynomial

variable {a b r : MixedPoly ℝ ℂ} {x y : MixedScalar ℝ ℂ}

section Values

/-- The value at a number, as a complex number. -/
noncomputable def valueAt (a : MixedPoly ℝ ℂ) (x : MixedScalar ℝ ℂ) : ℂ := (a.eval x).toComplex

/-- There is a value at the number: it is not zero, or no negative exponent occurs. -/
def HasValueAt (a : MixedPoly ℝ ℂ) (x : MixedScalar ℝ ℂ) : Prop :=
  x.toComplex ≠ 0 ∨ ∀ k < 0, a.coeff k = 0

/-- The value does not depend on whether real coefficients and real numbers are read as complex
ones. -/
theorem valueAt_eq_eval (a : MixedPoly ℝ ℂ) (x : MixedScalar ℝ ℂ) :
    a.valueAt x = a.toComplex.eval x.toComplex := by
  cases x with
  | complex z => cases a <;> rfl
  | real t =>
    cases a with
    | complex p =>
      change evalAtReal p t = p.eval (t : ℂ)
      unfold evalAtReal Poly.eval
      simp
    | real p =>
      change ((p.eval t : ℝ) : ℂ) = (p.map Complex.ofReal).eval (t : ℂ)
      have hnested : Poly.nested (p.coef.map Complex.ofReal) (t : ℂ) =
          (Poly.nested p.coef t : ℝ) := Poly.nested_map Complex.ofRealHom p.coef t
      unfold Poly.eval
      rw [Poly.first_map, Poly.coef_map, hnested, apply_ite Complex.ofReal]
      simp

/-- The value sums the coefficients times the powers of the number. -/
theorem Trimmed.valueAt_eq (ha : a.Trimmed) (h : a.HasValueAt x) :
    a.valueAt x = powerSum a.coeff x.toComplex := by
  rw [valueAt_eq_eval]
  exact Poly.eval_eq_powerSum (h.imp_right ha.toComplex.first_nonneg)

/-- Polynomials whose coefficients agree have the same values. -/
theorem Trimmed.valueAt_of_coeff (hr : r.Trimmed) {f : ℤ → ℂ} (hcoeff : ∀ k, r.coeff k = f k)
    (h : x.toComplex ≠ 0 ∨ ∀ k < 0, f k = 0) : r.valueAt x = powerSum f x.toComplex := by
  rw [hr.valueAt_eq (h.imp_right fun hf k hk => (hcoeff k).trans (hf k hk)), funext hcoeff]

end Values

section Arithmetic

/-- The value of a sum is the sum of the values. -/
theorem Trimmed.exists_add? (ha : a.Trimmed) (hb : b.Trimmed) (hax : a.HasValueAt x)
    (hbx : b.HasValueAt x) :
    ∃ r, a.add? b = .ok r ∧ r.valueAt x = a.valueAt x + b.valueAt x := by
  obtain ⟨r, hr, -, hcoeff⟩ := returns_add? a b
  refine ⟨r, hr, ?_⟩
  rw [(trimmed_of_add? hr).valueAt_of_coeff hcoeff, ha.valueAt_eq hax, hb.valueAt_eq hbx,
    powerSum_add a.finite_support_coeff b.finite_support_coeff]
  rcases hax with hx | hazero
  · exact Or.inl hx
  · exact hbx.imp_right fun hbzero k hk => by rw [hazero k hk, hbzero k hk, add_zero]

/-- The value of a product is the product of the values. -/
theorem Trimmed.exists_mul? (ha : a.Trimmed) (hb : b.Trimmed) (hax : a.HasValueAt x)
    (hbx : b.HasValueAt x) :
    ∃ r, a.mul? b = .ok r ∧ r.valueAt x = a.valueAt x * b.valueAt x := by
  obtain ⟨r, hr, -, hcoeff⟩ := returns_mul? a b
  have hproduct : ∀ k, r.coeff k = (a.toComplex * b.toComplex).coeff k := fun k =>
    (hcoeff k).trans (Poly.coeff_mul a.toComplex b.toComplex k).symm
  have hfirst : x.toComplex ≠ 0 ∨ 0 ≤ a.toComplex.first ∧ 0 ≤ b.toComplex.first := by
    rcases hax with hx | hazero
    · exact Or.inl hx
    · exact hbx.imp_right fun hbzero =>
        ⟨ha.toComplex.first_nonneg hazero, hb.toComplex.first_nonneg hbzero⟩
  refine ⟨r, hr, ?_⟩
  rw [(trimmed_of_mul? hr).valueAt_of_coeff hproduct, ha.valueAt_eq hax, hb.valueAt_eq hbx]
  · exact Poly.powerSum_mul hfirst
  · refine hfirst.imp_right fun ⟨hafirst, hbfirst⟩ k hk => ?_
    rw [Poly.coeff_mul_eq_shiftedCoeff, shiftedCoeff_of_lt (by omega)]

end Arithmetic

section Transformations

/-- The conjugate across the imaginary axis has the conjugated value at minus the conjugated
number. -/
theorem Trimmed.valueAt_axisConj (ha : a.Trimmed) (h : a.HasValueAt x)
    (hy : y.toComplex = -starRingEnd ℂ x.toComplex) :
    a.axisConj.valueAt x = starRingEnd ℂ (a.valueAt y) := by
  have hay : a.HasValueAt y := h.imp_left fun hx => by
    rw [hy, neg_ne_zero]
    exact (map_ne_zero (starRingEnd ℂ)).mpr hx
  have hcoeff : ∀ k, a.axisConj.coeff k = starRingEnd ℂ (a.coeff k) * (-1) ^ k := fun k => by
    rw [coeff_axisConj, mul_comm]
  rw [(trimmed_axisConj a).valueAt_of_coeff hcoeff, ha.valueAt_eq hay,
    powerSum_mul_zpow (fun k => starRingEnd ℂ (a.coeff k)), powerSum_conj, hy]
  · rw [map_mul, map_neg, map_one, neg_one_mul]
  · exact h.imp_right fun hzero k hk => by rw [hzero k hk, map_zero, zero_mul]

/-- The conjugate across the unit circle has the conjugated value at the inverse of the conjugated
number. -/
theorem Trimmed.valueAt_circleConj (ha : a.Trimmed) (hx : x.toComplex ≠ 0)
    (hy : y.toComplex = (starRingEnd ℂ x.toComplex)⁻¹) :
    a.circleConj.valueAt x = starRingEnd ℂ (a.valueAt y) := by
  have hay : y.toComplex ≠ 0 := by
    rw [hy]
    exact inv_ne_zero ((map_ne_zero (starRingEnd ℂ)).mpr hx)
  rw [(Trimmed.circleConj a).valueAt_of_coeff ha.coeff_circleConj (Or.inl hx),
    ha.valueAt_eq (Or.inl hay), powerSum_comp_neg (fun k => starRingEnd ℂ (a.coeff k)),
    powerSum_conj, map_inv₀, hy]

/-- Scaling has the value at a multiple of the number. -/
theorem Trimmed.valueAt_scale (ha : a.Trimmed) {t : MixedScalar ℝ ℂ} (ht : t.toComplex ≠ 0)
    (h : a.HasValueAt x) (hy : y.toComplex = t.toComplex * x.toComplex) :
    (a.scale t).valueAt x = a.valueAt y := by
  have hay : a.HasValueAt y := h.imp_left fun hx => by
    rw [hy]
    exact mul_ne_zero ht hx
  rw [(trimmed_scale t a).valueAt_of_coeff (coeff_scale t a), ha.valueAt_eq hay,
    powerSum_mul_zpow a.coeff, hy]
  exact h.imp_right fun hzero k hk => by rw [hzero k hk, zero_mul]

/-- A shift multiplies the value by a power of the number. -/
theorem Trimmed.valueAt_shift (ha : a.Trimmed) {n : ℤ} (h : a.HasValueAt x)
    (hn : x.toComplex ≠ 0 ∨ 0 ≤ n) :
    (a.shift n).valueAt x = x.toComplex ^ n * a.valueAt x := by
  have hshift : x.toComplex ≠ 0 ∨ 0 ≤ n ∧ ∀ k < 0, a.coeff k = 0 := by
    rcases h with hx | hzero
    · exact Or.inl hx
    · exact hn.imp_right fun hn => ⟨hn, hzero⟩
  rw [(trimmed_shift n a).valueAt_of_coeff (coeff_shift n a), ha.valueAt_eq h,
    powerSum_shift hshift]
  exact hshift.imp_right fun ⟨hn, hzero⟩ k hk => hzero _ (by omega)

/-- The reciprocal has the conjugated value at the inverse of the conjugated number, times a power
of the number. -/
theorem Trimmed.exists_reciprocal (ha : a.Trimmed) (hordinary : a.variant = .ordinary)
    (hzero : a.isZero = false) (hx : x.toComplex ≠ 0)
    (hy : y.toComplex = (starRingEnd ℂ x.toComplex)⁻¹) :
    ∃ r, a.reciprocal = .ok r ∧
      r.valueAt x = x.toComplex ^ a.degree * starRingEnd ℂ (a.valueAt y) := by
  obtain ⟨r, hr⟩ := MixedPoly.exists_reciprocal hordinary
  have hcoeff : ∀ k, r.coeff k = a.circleConj.coeff (k - a.degree) := fun k => by
    rw [ha.coeff_reciprocal hr, ha.coeff_circleConj, neg_sub, degree_eq_last hzero]
  refine ⟨r, hr, ?_⟩
  rw [(trimmed_of_reciprocal hr).valueAt_of_coeff hcoeff (Or.inl hx), powerSum_shift (Or.inl hx),
    ← (Trimmed.circleConj a).valueAt_eq (Or.inl hx), ha.valueAt_circleConj hx hy]

end Transformations

/-- The value of a polynomial sums its coefficients times the powers of the number, wherever no
negative power of zero is asked for. So the values of a sum and a product are the sum and the
product of the values, and the transformations of a polynomial are transformations of the number:
both conjugations conjugate the value at the mirrored number, scaling has the value at a multiple
of the number, and shifts and the reciprocal multiply by a power of it. -/
theorem value_laws (ha : a.Trimmed) (hb : b.Trimmed) (x : MixedScalar ℝ ℂ) :
    (a.HasValueAt x → a.valueAt x = ∑ᶠ k : ℤ, a.coeff k * x.toComplex ^ k) ∧
    (a.HasValueAt x → b.HasValueAt x →
      (∃ r, a.add? b = .ok r ∧ r.valueAt x = a.valueAt x + b.valueAt x) ∧
      ∃ r, a.mul? b = .ok r ∧ r.valueAt x = a.valueAt x * b.valueAt x) ∧
    (a.HasValueAt x → ∀ y : MixedScalar ℝ ℂ, y.toComplex = -starRingEnd ℂ x.toComplex →
      a.axisConj.valueAt x = starRingEnd ℂ (a.valueAt y)) ∧
    (x.toComplex ≠ 0 → ∀ y : MixedScalar ℝ ℂ, y.toComplex = (starRingEnd ℂ x.toComplex)⁻¹ →
      a.circleConj.valueAt x = starRingEnd ℂ (a.valueAt y) ∧
      (a.variant = .ordinary → a.isZero = false → ∃ r, a.reciprocal = .ok r ∧
        r.valueAt x = x.toComplex ^ a.degree * starRingEnd ℂ (a.valueAt y))) ∧
    (a.HasValueAt x → ∀ t y : MixedScalar ℝ ℂ, t.toComplex ≠ 0 →
      y.toComplex = t.toComplex * x.toComplex → (a.scale t).valueAt x = a.valueAt y) ∧
    (a.HasValueAt x → ∀ n : ℤ, x.toComplex ≠ 0 ∨ 0 ≤ n →
      (a.shift n).valueAt x = x.toComplex ^ n * a.valueAt x) := by
  refine ⟨ha.valueAt_eq, fun hax hbx => ⟨ha.exists_add? hb hax hbx, ha.exists_mul? hb hax hbx⟩,
    fun hax y hy => ha.valueAt_axisConj hax hy, fun hx y hy => ⟨ha.valueAt_circleConj hx hy, ?_⟩,
    fun hax t y ht hy => ha.valueAt_scale ht hax hy, fun hax n hn => ha.valueAt_shift hax hn⟩
  exact fun hordinary hzero => ha.exists_reciprocal hordinary hzero hx hy

/-- The product of the Laurent polynomial `i z⁻¹ + 1` and the ordinary polynomial `1 + s` has the
value `3 (1 + i / 2)` at two. -/
theorem value_laws_at_two :
    (complex (Poly.ofWindow (-1) #[Complex.I, 1] "z") : MixedPoly ℝ ℂ).Trimmed ∧
      (real (Poly.ofCoef #[1, 1] "s") : MixedPoly ℝ ℂ).Trimmed ∧
      (MixedScalar.real 2 : MixedScalar ℝ ℂ).toComplex ≠ 0 ∧
      ∃ r : MixedPoly ℝ ℂ, (complex (Poly.ofWindow (-1) #[Complex.I, 1] "z")).mul?
          (real (Poly.ofCoef #[1, 1] "s")) = .ok r ∧
        r.valueAt (.real 2) = 3 * (1 + Complex.I / 2) := by
  let a : MixedPoly ℝ ℂ := complex (Poly.ofWindow (-1) #[Complex.I, 1] "z")
  let b : MixedPoly ℝ ℂ := real (Poly.ofCoef #[1, 1] "s")
  let x : MixedScalar ℝ ℂ := .real 2
  have ha : a.Trimmed := Poly.trimmed_ofWindow _ _ _
  have hb : b.Trimmed := Poly.trimmed_ofCoef _ _
  have hx : x.toComplex = 2 := Complex.ofReal_ofNat 2
  have hne : x.toComplex ≠ 0 := hx ▸ two_ne_zero
  obtain ⟨r, hr, hvalue⟩ := ((value_laws ha hb x).2.1 (Or.inl hne) (Or.inl hne)).2
  have hax : a.valueAt x = 2⁻¹ * (2 + Complex.I) := by
    rw [ha.valueAt_of_coeff (Poly.coeff_ofWindow _ _ _) (Or.inl hne),
      Poly.powerSum_windowCoeff (Or.inl hne), vectorPolynomial_pair, hx]
    simp
  have hbx : b.valueAt x = 1 + 2 := by
    change (((Poly.ofCoef #[1, 1] "s").eval (2 : ℝ) : ℝ) : ℂ) = _
    rw [Poly.eval_eq_of_ordinary (Poly.variant_ofCoef _ _), Poly.toPolynomial_linear]
    norm_num
  refine ⟨ha, hb, hne, r, hr, ?_⟩
  rw [hvalue, hax, hbx]
  ring

end MixedPoly

end PolynomialEquations
