import PolynomialEquations.Proofs.Mixed.Transform

/-!
# How the transformations act on each other

A shift moves the coefficient at every exponent, scaling multiplies it by a power of the factor, and
the conjugations conjugate it, with a sign or at the negated exponent. Two of them in a row are
therefore compared coefficient by coefficient, whatever windows the polynomials in between are
stored in. Shifts and scalings respect products because exponents add up in them.
-/

namespace PolynomialEquations

namespace MixedPoly

variable {a : MixedPoly ℝ ℂ} {t : MixedScalar ℝ ℂ}

/-- The computation returns a polynomial with the coefficients of another one. -/
def ReturnsLike (x : Except Failure (MixedPoly ℝ ℂ)) (a : MixedPoly ℝ ℂ) : Prop :=
  ∃ r, x = .ok r ∧ ∀ k, r.coeff k = a.coeff k

/-- A multiple by a number is returned with the coefficients of a polynomial that has the multiples
of the coefficients. -/
theorem returnsLike_mulNumber? {b : MixedPoly ℝ ℂ} (h : ∀ k, b.coeff k = t.toComplex * a.coeff k) :
    ReturnsLike (a.mulNumber? t) b := by
  obtain ⟨r, hr, -, hcoeff⟩ := returns_mulNumber? a t
  exact ⟨r, hr, fun k => (hcoeff k).trans (h k).symm⟩

section Shift

/-- Shifts add up. -/
theorem coeff_shift_shift (a : MixedPoly ℝ ℂ) (m n k : ℤ) :
    ((a.shift m).shift n).coeff k = (a.shift (m + n)).coeff k := by
  rw [coeff_shift, coeff_shift, coeff_shift, sub_sub, add_comm n m]

/-- A shift of a product is a shift of its first factor. -/
theorem returnsImage_shift_mul? (a b : MixedPoly ℝ ℂ) (n : ℤ) :
    ReturnsImage (shift n) (a.mul? b) ((a.shift n).mul? b) := by
  obtain ⟨r, hr, -⟩ := returns_mul? a b
  obtain ⟨s, hs, -⟩ := returns_mul? (a.shift n) b
  refine ⟨r, s, hr, hs, fun k => ?_⟩
  rw [coeff_shift, coeff_of_mul? hr, coeff_of_mul? hs, ← finsum_comp_equiv (Equiv.subRight n)]
  refine finsum_congr fun i => ?_
  rw [Equiv.subRight_apply, coeff_shift, sub_sub_sub_cancel_right]

/-- Conjugating a shifted polynomial across the imaginary axis changes the signs of all coefficients
if the shift is odd. -/
theorem coeff_axisConj_shift (a : MixedPoly ℝ ℂ) (n k : ℤ) :
    (a.shift n).axisConj.coeff k = (-1) ^ n * (a.axisConj.shift n).coeff k := by
  have hsign : (-1 : ℂ) ^ k = (-1) ^ n * (-1) ^ (k - n) := by
    rw [← zpow_add₀ (neg_ne_zero.mpr one_ne_zero), add_sub_cancel]
  rw [coeff_axisConj, coeff_shift, coeff_shift, coeff_axisConj, hsign, mul_assoc]

/-- Conjugating a shifted polynomial across the unit circle turns the shift around. -/
theorem Trimmed.coeff_circleConj_shift (ha : a.Trimmed) (n k : ℤ) :
    (a.shift n).circleConj.coeff k = (a.circleConj.shift (-n)).coeff k := by
  have hexponent : -k - n = -(k - -n) := by ring
  rw [(trimmed_shift n a).coeff_circleConj, coeff_shift, coeff_shift, ha.coeff_circleConj,
    hexponent]

end Shift

section Scale

/-- Factors of the variable multiply. -/
theorem coeff_scale_scale (a : MixedPoly ℝ ℂ) {u v : MixedScalar ℝ ℂ}
    (hv : v.toComplex = t.toComplex * u.toComplex) (k : ℤ) :
    ((a.scale t).scale u).coeff k = (a.scale v).coeff k := by
  rw [coeff_scale, coeff_scale, coeff_scale, hv, mul_zpow, mul_assoc]

/-- Scaling respects sums. -/
theorem returnsImage_scale_add? (a b : MixedPoly ℝ ℂ) (t : MixedScalar ℝ ℂ) :
    ReturnsImage (scale t) (a.add? b) ((a.scale t).add? (b.scale t)) := by
  obtain ⟨r, hr, -, hleft⟩ := returns_add? a b
  obtain ⟨s, hs, -, hright⟩ := returns_add? (a.scale t) (b.scale t)
  refine ⟨r, s, hr, hs, fun k => ?_⟩
  rw [coeff_scale, hleft, hright]
  simp only [coeff_scale, add_mul]

/-- Scaling respects products. -/
theorem returnsImage_scale_mul? (a b : MixedPoly ℝ ℂ) (ht : t.toComplex ≠ 0) :
    ReturnsImage (scale t) (a.mul? b) ((a.scale t).mul? (b.scale t)) := by
  obtain ⟨r, hr, -⟩ := returns_mul? a b
  obtain ⟨s, hs, -⟩ := returns_mul? (a.scale t) (b.scale t)
  refine ⟨r, s, hr, hs, fun k => ?_⟩
  rw [coeff_scale, coeff_of_mul? hr, coeff_of_mul? hs, mul_comm, ← smul_eq_mul, smul_finsum]
  refine finsum_congr fun i => ?_
  have hpower : t.toComplex ^ k = t.toComplex ^ i * t.toComplex ^ (k - i) := by
    rw [← zpow_add₀ ht, add_sub_cancel]
  rw [coeff_scale, coeff_scale, smul_eq_mul, hpower]
  ring

/-- Scaling a shifted polynomial also scales the power of the variable. -/
theorem coeff_scale_shift (a : MixedPoly ℝ ℂ) (ht : t.toComplex ≠ 0) (n k : ℤ) :
    ((a.shift n).scale t).coeff k = t.toComplex ^ n * ((a.scale t).shift n).coeff k := by
  have hpower : t.toComplex ^ k = t.toComplex ^ n * t.toComplex ^ (k - n) := by
    rw [← zpow_add₀ ht, add_sub_cancel]
  rw [coeff_scale, coeff_shift, coeff_shift, coeff_scale, hpower, mul_left_comm]

/-- Conjugating a scaled polynomial across the imaginary axis conjugates the factor. -/
theorem coeff_axisConj_scale (a : MixedPoly ℝ ℂ) {v : MixedScalar ℝ ℂ}
    (hv : v.toComplex = starRingEnd ℂ t.toComplex) (k : ℤ) :
    (a.scale t).axisConj.coeff k = (a.axisConj.scale v).coeff k := by
  rw [coeff_axisConj, coeff_scale, coeff_scale, coeff_axisConj, hv, map_mul, map_zpow₀, mul_assoc]

/-- Conjugating a scaled polynomial across the unit circle conjugates and inverts the factor. -/
theorem Trimmed.coeff_circleConj_scale (ha : a.Trimmed) {v : MixedScalar ℝ ℂ}
    (hv : v.toComplex = (starRingEnd ℂ t.toComplex)⁻¹) (k : ℤ) :
    (a.scale t).circleConj.coeff k = (a.circleConj.scale v).coeff k := by
  rw [(trimmed_scale t a).coeff_circleConj, coeff_scale, coeff_scale, ha.coeff_circleConj, hv,
    map_mul, map_zpow₀, inv_zpow']

end Scale

/-- Shifts add up and may be moved into the first factor of a product; scalings multiply and respect
sums and products. A scaling passes a shift and leaves a power of the factor, a conjugation across
the imaginary axis passes a shift and leaves a sign, and one across the unit circle turns the shift
around. A scaling passes the conjugations as the scaling with the conjugated factor, across the unit
circle also inverted. All this holds at every exponent, for polynomials of either kind and real or
complex factors. -/
theorem transformation_laws (ha : a.Trimmed) (b : MixedPoly ℝ ℂ) (m n : ℤ)
    (ht : t.toComplex ≠ 0) (u : MixedScalar ℝ ℂ) :
    (∀ k, ((a.shift m).shift n).coeff k = (a.shift (m + n)).coeff k) ∧
    ReturnsImage (shift n) (a.mul? b) ((a.shift n).mul? b) ∧
    (∀ v : MixedScalar ℝ ℂ, v.toComplex = t.toComplex * u.toComplex →
      ∀ k, ((a.scale t).scale u).coeff k = (a.scale v).coeff k) ∧
    ReturnsImage (scale t) (a.mul? b) ((a.scale t).mul? (b.scale t)) ∧
    ReturnsImage (scale t) (a.add? b) ((a.scale t).add? (b.scale t)) ∧
    (∀ v : MixedScalar ℝ ℂ, v.toComplex = t.toComplex ^ n →
      ReturnsLike (((a.scale t).shift n).mulNumber? v) ((a.shift n).scale t)) ∧
    (∀ v : MixedScalar ℝ ℂ, v.toComplex = (-1) ^ n →
      ReturnsLike ((a.axisConj.shift n).mulNumber? v) (a.shift n).axisConj) ∧
    (∀ k, (a.shift n).circleConj.coeff k = (a.circleConj.shift (-n)).coeff k) ∧
    (∀ v : MixedScalar ℝ ℂ, v.toComplex = starRingEnd ℂ t.toComplex →
      ∀ k, (a.scale t).axisConj.coeff k = (a.axisConj.scale v).coeff k) ∧
    ∀ v : MixedScalar ℝ ℂ, v.toComplex = (starRingEnd ℂ t.toComplex)⁻¹ →
      ∀ k, (a.scale t).circleConj.coeff k = (a.circleConj.scale v).coeff k := by
  refine ⟨coeff_shift_shift a m n, returnsImage_shift_mul? a b n, fun v => coeff_scale_scale a,
    returnsImage_scale_mul? a b ht, returnsImage_scale_add? a b t, fun v hv => ?_, fun v hv => ?_,
    ha.coeff_circleConj_shift n, fun v => coeff_axisConj_scale a,
    fun v => ha.coeff_circleConj_scale⟩
  · exact returnsLike_mulNumber? fun k => by rw [hv, coeff_scale_shift a ht]
  · exact returnsLike_mulNumber? fun k => by rw [hv, coeff_axisConj_shift]

/-- The ordinary polynomial `i s`, which has no constant term, shifted by minus three and scaled by
two, is an eighth of the scaled polynomial shifted by minus three. The conjugates of the shifted and
of the scaled polynomial have the coefficients `-i` at exponent two and `2 i` at exponent one. -/
theorem transformation_laws_linear :
    let a : MixedPoly ℝ ℂ := complex (Poly.ofCoef #[0, Complex.I] "s")
    let t : MixedScalar ℝ ℂ := .real 2
    a.Trimmed ∧ t.toComplex ≠ 0 ∧
      (MixedScalar.real (1 / 8) : MixedScalar ℝ ℂ).toComplex = t.toComplex ^ (-3 : ℤ) ∧
      (∃ r, ((a.scale t).shift (-3)).mulNumber? (.real (1 / 8)) = .ok r ∧
        r.coeff (-2) = Complex.I / 4) ∧
      (a.shift (-3)).circleConj.coeff 2 = -Complex.I ∧
      t.toComplex = starRingEnd ℂ t.toComplex ∧
      (a.scale t).axisConj.coeff 1 = 2 * Complex.I := by
  intro a t
  have ha : a.Trimmed := Poly.trimmed_ofCoef _ _
  have ht : t.toComplex = 2 := Complex.ofReal_ofNat 2
  have hne : t.toComplex ≠ 0 := ht.trans_ne two_ne_zero
  have hreal : t.toComplex = starRingEnd ℂ t.toComplex := (Complex.conj_ofReal 2).symm
  have hone : a.coeff 1 = Complex.I := by
    rw [coeff_complex, Poly.coeff_ofCoef]
    rfl
  have hpower :
      (MixedScalar.real (1 / 8) : MixedScalar ℝ ℂ).toComplex = t.toComplex ^ (-3 : ℤ) := by
    rw [ht]
    change ((1 / 8 : ℝ) : ℂ) = _
    norm_num
  obtain ⟨-, -, -, -, -, hlike, -, hcircle, haxis, -⟩ := transformation_laws ha a 0 (-3) hne t
  obtain ⟨r, hr, hcoeff⟩ := hlike _ hpower
  refine ⟨ha, hne, hpower, ⟨r, hr, ?_⟩, ?_, hreal, ?_⟩
  · rw [hcoeff, coeff_scale, coeff_shift, ht, neg_sub_neg]
    norm_num [hone]
    ring
  · rw [hcircle, coeff_shift, ha.coeff_circleConj]
    norm_num [hone]
  · rw [haxis t hreal, coeff_scale, coeff_axisConj, hone, ht]
    norm_num
    ring

end MixedPoly

end PolynomialEquations
