import PolynomialEquations.Proofs.Mixed.Arithmetic
import PolynomialEquations.Proofs.Mixed.Equality
import PolynomialEquations.Proofs.Poly.Conjugation

/-!
# The two conjugations respect arithmetic

Conjugation across the imaginary axis and across the unit circle act alike on the coefficients: they
conjugate each of them, move it along an involution of the exponents and multiply it by a sign that
turns sums of exponents into products. From this alone follow the laws of a conjugation, at every
integer exponent and for polynomials of either kind over the real or the complex numbers.
-/

namespace PolynomialEquations

/-- The complex conjugate of a number; a real number stays as it is. -/
noncomputable def MixedScalar.conj : MixedScalar ℝ ℂ → MixedScalar ℝ ℂ
  | real t => real t
  | complex z => complex (starRingEnd ℂ z)

theorem MixedScalar.toComplex_conj (t : MixedScalar ℝ ℂ) :
    t.conj.toComplex = starRingEnd ℂ t.toComplex := by
  cases t with
  | real t => exact (Complex.conj_ofReal t).symm
  | complex z => rfl

/-- A polynomial that passed the check of its window is trimmed. -/
theorem Poly.trimmed_of_assemble? {K : Type} [Zero K] [BEq K] [LawfulBEq K] {v : Variant}
    {first : ℤ} {c : Array K} {s : String} {r : Poly K} (h : assemble? v first c s = .ok r) :
    r.Trimmed := by
  unfold assemble? at h
  split at h
  · cases h
  · obtain rfl := Except.ok.inj h
    exact trimmed_assemble v first c s

namespace MixedPoly

variable {a b r : MixedPoly ℝ ℂ}

section Results

/-- What a computation returns after a change of its value comes from a value it returned. -/
theorem exists_of_map_eq_ok {α β : Type} {x : Except Failure α} {f : α → β} {y : β}
    (h : x.map f = .ok y) : ∃ u, x = .ok u ∧ f u = y := by
  cases x with
  | error e => cases h
  | ok u => exact ⟨u, rfl, Except.ok.inj h⟩

/-- An operation that combines two polynomials over common scalars returns trimmed polynomials if it
does so over the real and over the complex numbers. -/
theorem trimmed_of_ask₂ {onReal : Poly ℝ → Poly ℝ → Except Failure (Poly ℝ)}
    {onComplex : Poly ℂ → Poly ℂ → Except Failure (Poly ℂ)}
    (hreal : ∀ p q r, onReal p q = .ok r → r.Trimmed)
    (hcomplex : ∀ p q r, onComplex p q = .ok r → r.Trimmed)
    (h : ask₂ (fun p q => (onReal p q).map real) (fun p q => (onComplex p q).map complex) a b =
      .ok r) : r.Trimmed := by
  have hmixed : ∀ p q, (onComplex p q).map complex = .ok r → r.Trimmed := by
    intro p q hpq
    obtain ⟨u, hu, rfl⟩ := exists_of_map_eq_ok hpq
    exact hcomplex p q u hu
  cases a with
  | complex p => exact hmixed _ _ h
  | real p =>
    cases b with
    | complex q => exact hmixed _ _ h
    | real q =>
      obtain ⟨u, hu, rfl⟩ := exists_of_map_eq_ok h
      exact hreal p q u hu

/-- A sum is trimmed. -/
theorem trimmed_of_add? (h : a.add? b = .ok r) : r.Trimmed :=
  trimmed_of_ask₂ (fun _ _ _ => Poly.trimmed_of_assemble?)
    (fun _ _ _ => Poly.trimmed_of_assemble?) h

/-- A product is trimmed. -/
theorem trimmed_of_mul? (h : a.mul? b = .ok r) : r.Trimmed :=
  trimmed_of_ask₂ (fun _ _ _ => Poly.trimmed_of_assemble?)
    (fun _ _ _ => Poly.trimmed_of_assemble?) h

end Results

section Laws

/-- Both computations return a polynomial, and the second one has the coefficients that `f` gives
the first one. -/
def ReturnsImage (f : MixedPoly ℝ ℂ → MixedPoly ℝ ℂ) (x y : Except Failure (MixedPoly ℝ ℂ)) :
    Prop :=
  ∃ r s, x = .ok r ∧ y = .ok s ∧ ∀ k, (f r).coeff k = s.coeff k

/-- The operation is a conjugation of polynomials: it undoes itself, respects sums and products, and
conjugates scalar factors. -/
structure IsConjugation (f : MixedPoly ℝ ℂ → MixedPoly ℝ ℂ) : Prop where
  /-- Conjugating twice keeps the coefficients. -/
  coeff_twice : ∀ {a}, a.Trimmed → ∀ k, (f (f a)).coeff k = a.coeff k
  /-- The conjugate of a sum is the sum of the conjugates. -/
  image_add : ∀ {a b}, a.Trimmed → b.Trimmed → ReturnsImage f (a.add? b) ((f a).add? (f b))
  /-- The conjugate of a product is the product of the conjugates. -/
  image_mul : ∀ {a b}, a.Trimmed → b.Trimmed → ReturnsImage f (a.mul? b) ((f a).mul? (f b))
  /-- A scalar factor is conjugated. -/
  image_mulNumber : ∀ {a}, a.Trimmed → ∀ t : MixedScalar ℝ ℂ,
    ReturnsImage f (a.mulNumber? t) ((f a).mulNumber? t.conj)

/-- The operation conjugates the coefficients, moves them along the involution `e` of the exponents
and multiplies them by a sign. -/
structure ConjugatesAlong (f : MixedPoly ℝ ℂ → MixedPoly ℝ ℂ) (e : ℤ ≃+ ℤ) (sign : ℤ → ℂ) :
    Prop where
  /-- What is trimmed stays trimmed. -/
  trimmed : ∀ {a}, a.Trimmed → (f a).Trimmed
  /-- The coefficient at an exponent comes from one coefficient. -/
  coeff_eq : ∀ {a}, a.Trimmed → ∀ k, (f a).coeff k = sign k * starRingEnd ℂ (a.coeff (e k))
  /-- Moving an exponent twice brings it back. -/
  apply_apply : ∀ k, e (e k) = k
  /-- The two signs that a coefficient gets cancel. -/
  sign_cancel : ∀ k, sign k * starRingEnd ℂ (sign (e k)) = 1
  /-- The sign at a sum of exponents is the product of the signs. -/
  sign_add : ∀ i j, sign (i + j) = sign i * sign j

namespace ConjugatesAlong

variable {f : MixedPoly ℝ ℂ → MixedPoly ℝ ℂ} {e : ℤ ≃+ ℤ} {sign : ℤ → ℂ}

/-- The signs and the conjugation leave the terms of a product apart, which only change their
order. -/
theorem coeff_product (h : ConjugatesAlong f e sign) (ha : a.Trimmed) (hb : b.Trimmed) (k : ℤ) :
    sign k * starRingEnd ℂ (∑ᶠ i, a.coeff i * b.coeff (e k - i)) =
      ∑ᶠ i, (f a).coeff i * (f b).coeff (k - i) := by
  have hterm : ∀ i, (f a).coeff i * (f b).coeff (k - i) =
      sign k * starRingEnd ℂ (a.coeff (e i) * b.coeff (e k - e i)) := by
    intro i
    have hsign := h.sign_add i (k - i)
    rw [add_sub_cancel] at hsign
    rw [h.coeff_eq ha, h.coeff_eq hb, hsign, map_sub, map_mul]
    ring
  calc sign k * starRingEnd ℂ (∑ᶠ i, a.coeff i * b.coeff (e k - i))
      = sign k * starRingEnd ℂ (∑ᶠ i, a.coeff (e i) * b.coeff (e k - e i)) := by
        rw [← finsum_comp_equiv e.toEquiv]
        rfl
    _ = sign k * ∑ᶠ i, starRingEnd ℂ (a.coeff (e i) * b.coeff (e k - e i)) :=
        congrArg (sign k * ·) (conj_finsum _)
    _ = ∑ᶠ i, (f a).coeff i * (f b).coeff (k - i) := by
        rw [finsum_congr hterm, ← smul_eq_mul, smul_finsum]
        simp only [smul_eq_mul]

/-- An operation of this form is a conjugation of polynomials. -/
theorem isConjugation (h : ConjugatesAlong f e sign) : IsConjugation f where
  coeff_twice {a} ha k := by
    rw [h.coeff_eq (h.trimmed ha), h.coeff_eq ha, h.apply_apply, map_mul, RCLike.conj_conj,
      ← mul_assoc, h.sign_cancel, one_mul]
  image_add {a b} ha hb := by
    obtain ⟨r, hr, -, hleft⟩ := returns_add? a b
    obtain ⟨s, hs, -, hright⟩ := returns_add? (f a) (f b)
    refine ⟨r, s, hr, hs, fun k => ?_⟩
    rw [h.coeff_eq (trimmed_of_add? hr), hleft, hright]
    simp only [h.coeff_eq ha, h.coeff_eq hb, map_add, mul_add]
  image_mul {a b} ha hb := by
    obtain ⟨r, hr, -, hleft⟩ := returns_mul? a b
    obtain ⟨s, hs, -, hright⟩ := returns_mul? (f a) (f b)
    refine ⟨r, s, hr, hs, fun k => ?_⟩
    rw [h.coeff_eq (trimmed_of_mul? hr), hleft, hright]
    exact h.coeff_product ha hb k
  image_mulNumber {a} ha t := by
    obtain ⟨r, hr, -, hleft⟩ := returns_mulNumber? a t
    obtain ⟨s, hs, -, hright⟩ := returns_mulNumber? (f a) t.conj
    refine ⟨r, s, hr, hs, fun k => ?_⟩
    rw [h.coeff_eq (trimmed_of_mul? hr), hleft, hright]
    simp only [h.coeff_eq ha, t.toComplex_conj, map_mul, mul_left_comm]

end ConjugatesAlong

end Laws

section Axis

/-- Conjugation across the imaginary axis keeps the kind. -/
theorem variant_axisConj (a : MixedPoly ℝ ℂ) : a.axisConj.variant = a.variant := by
  cases a <;> exact Poly.variant_axisConj _

theorem trimmed_axisConj (a : MixedPoly ℝ ℂ) : a.axisConj.Trimmed := by
  cases a <;> exact Poly.trimmed_assemble _ _ _ _

/-- A sign at odd exponents is a power of minus one. -/
theorem neg_one_zpow_mul (k : ℤ) (z : ℂ) : (-1) ^ k * z = if k % 2 = 1 then -z else z := by
  by_cases hk : k % 2 = 1
  · rw [if_pos hk, (Int.odd_iff.mpr hk).neg_one_zpow, neg_one_mul]
  · rw [if_neg hk, (Int.even_iff.mpr (by omega)).neg_one_zpow, one_mul]

/-- Conjugation across the imaginary axis conjugates the coefficient at every exponent, and negates
it at odd ones. -/
theorem coeff_axisConj (a : MixedPoly ℝ ℂ) (k : ℤ) :
    a.axisConj.coeff k = (-1) ^ k * starRingEnd ℂ (a.coeff k) := by
  rw [neg_one_zpow_mul]
  cases a with
  | real p =>
    change (real p.axisConj : MixedPoly ℝ ℂ).coeff k = _
    rw [coeff_real, coeff_real, Poly.coeff_axisConj, conj_trivial, Complex.conj_ofReal,
      apply_ite Complex.ofReal, Complex.ofReal_neg]
  | complex p => exact Poly.coeff_axisConj p k

/-- Conjugation across the imaginary axis leaves every coefficient at its exponent. -/
theorem conjugatesAlong_axisConj :
    ConjugatesAlong axisConj (AddEquiv.refl ℤ) fun k => (-1) ^ k where
  trimmed _ := trimmed_axisConj _
  coeff_eq {a} _ := coeff_axisConj a
  apply_apply _ := rfl
  sign_cancel k := by
    rw [map_zpow₀, map_neg, map_one, AddEquiv.refl_apply, ← mul_zpow, neg_one_mul, neg_neg,
      one_zpow]
  sign_add := zpow_add₀ (neg_ne_zero.mpr one_ne_zero)

end Axis

section Circle

/-- Conjugation across the unit circle conjugates the coefficients and negates their exponents. -/
theorem Trimmed.coeff_circleConj (ha : a.Trimmed) (k : ℤ) :
    a.circleConj.coeff k = starRingEnd ℂ (a.coeff (-k)) := by
  cases a with
  | real p =>
    change (real p.circleConj : MixedPoly ℝ ℂ).coeff k = _
    rw [coeff_real, coeff_real, Poly.Trimmed.coeff_circleConj ha, conj_trivial, Complex.conj_ofReal]
  | complex p => exact Poly.Trimmed.coeff_circleConj ha k

/-- Conjugation across the unit circle moves every coefficient to the negated exponent. -/
theorem conjugatesAlong_circleConj :
    ConjugatesAlong circleConj (AddEquiv.neg ℤ) fun _ => 1 where
  trimmed {a} _ := Trimmed.circleConj a
  coeff_eq ha k := by
    rw [ha.coeff_circleConj, one_mul]
    rfl
  apply_apply := neg_neg
  sign_cancel _ := by rw [map_one, one_mul]
  sign_add _ _ := (one_mul 1).symm

end Circle

/-- Both conjugations undo themselves, respect sums and products and conjugate scalar factors. The
one across the imaginary axis conjugates every coefficient, with a sign at odd exponents, and keeps
the kind; the one across the unit circle also negates the exponents and gives a Laurent polynomial.
They may be exchanged. -/
theorem conjugation_laws :
    IsConjugation axisConj ∧ IsConjugation circleConj ∧
    ∀ a : MixedPoly ℝ ℂ, a.Trimmed →
      (∀ k : ℤ, a.axisConj.coeff k = (-1) ^ k * starRingEnd ℂ (a.coeff k)) ∧
      (∀ k : ℤ, a.circleConj.coeff k = starRingEnd ℂ (a.coeff (-k))) ∧
      a.axisConj.variant = a.variant ∧ a.circleConj.variant = .laurent ∧
      ∀ k : ℤ, a.axisConj.circleConj.coeff k = a.circleConj.axisConj.coeff k := by
  refine ⟨conjugatesAlong_axisConj.isConjugation, conjugatesAlong_circleConj.isConjugation,
    fun a ha => ⟨coeff_axisConj a, ha.coeff_circleConj, variant_axisConj a, variant_circleConj a,
      fun k => ?_⟩⟩
  -- the sign at an exponent is the one at its negative
  rw [(trimmed_axisConj a).coeff_circleConj, coeff_axisConj, coeff_axisConj, ha.coeff_circleConj,
    map_mul, map_zpow₀, map_neg, map_one, zpow_neg, ← inv_zpow, inv_neg, inv_one]

/-- The ordinary polynomial `i s` has the coefficient `i` at exponent one across the imaginary axis,
and `-i` at exponent minus one across the unit circle. -/
theorem conjugation_laws_imaginary :
    (complex (Poly.ofCoef #[0, Complex.I] "s") : MixedPoly ℝ ℂ).Trimmed ∧
      (complex (Poly.ofCoef #[0, Complex.I] "s") : MixedPoly ℝ ℂ).axisConj.coeff 1 = Complex.I ∧
      (complex (Poly.ofCoef #[0, Complex.I] "s") : MixedPoly ℝ ℂ).circleConj.coeff (-1) =
        -Complex.I ∧
      (complex (Poly.ofCoef #[0, Complex.I] "s") : MixedPoly ℝ ℂ).circleConj.variant =
        .laurent := by
  have htrimmed : (complex (Poly.ofCoef #[0, Complex.I] "s") : MixedPoly ℝ ℂ).Trimmed :=
    Poly.trimmed_ofCoef _ _
  have hone : (complex (Poly.ofCoef #[0, Complex.I] "s") : MixedPoly ℝ ℂ).coeff 1 = Complex.I := by
    rw [coeff_complex, Poly.coeff_ofCoef]
    rfl
  obtain ⟨-, -, hlaws⟩ := conjugation_laws
  obtain ⟨haxis, hcircle, -, hvariant, -⟩ := hlaws _ htrimmed
  refine ⟨htrimmed, ?_, ?_, hvariant⟩
  · rw [haxis, hone, zpow_one, Complex.conj_I, neg_mul_neg, one_mul]
  · rw [hcircle, neg_neg, hone, Complex.conj_I]

end MixedPoly

end PolynomialEquations
