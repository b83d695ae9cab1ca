import PolynomialEquations.Analysis.Symmetry
import PolynomialEquations.Proofs.Analysis.Symmetry
import PolynomialEquations.Proofs.Mixed.Conjugation

/-!
# Symmetric mixed polynomials

A polynomial over the real or the complex numbers is symmetric when it has the coefficients of its
conjugate: across the imaginary axis for an ordinary one, across the unit circle for a Laurent
polynomial. A conjugation respects sums and products, so a sum or product is symmetric as soon as
the conjugates of the operands have the same sum or product. That holds of two symmetric operands,
and of a polynomial and its conjugate, which the conjugation exchanges.
-/

namespace PolynomialEquations

/-- Kinds that are ordinary under the same condition are equal. -/
theorem Variant.eq_of_ordinary_iff {v w : Variant} (h : v = .ordinary ↔ w = .ordinary) : v = w := by
  cases v <;> cases w <;> simp_all

namespace MixedPoly

variable {a b : MixedPoly ℝ ℂ}

section Predicate

/-- Whether a polynomial equals the conjugate that belongs to its kind, up to a tolerance. -/
noncomputable def isConjSymmetric (tol : ℝ) (a : MixedPoly ℝ ℂ) : Bool :=
  a.ask (PolynomialEquations.isConjSymmetric · tol) (PolynomialEquations.isConjSymmetric · tol)

/-- The conjugation that belongs to a kind of polynomial. -/
noncomputable def conjOfKind : Variant → MixedPoly ℝ ℂ → MixedPoly ℝ ℂ
  | .ordinary => axisConj
  | .laurent => circleConj

/-- The conjugation of either kind is a conjugation of polynomials. -/
theorem isConjugation_conjOfKind (v : Variant) : IsConjugation (conjOfKind v) := by
  cases v with
  | ordinary => exact conjugatesAlong_axisConj.isConjugation
  | laurent => exact conjugatesAlong_circleConj.isConjugation

theorem trimmed_conjOfKind (v : Variant) (a : MixedPoly ℝ ℂ) : (conjOfKind v a).Trimmed := by
  cases v with
  | ordinary => exact trimmed_axisConj a
  | laurent => exact Trimmed.circleConj a

/-- The conjugation of a polynomial's own kind is the one of the stored polynomial. -/
theorem conjOfKind_variant (a : MixedPoly ℝ ℂ) :
    conjOfKind a.variant a = a.map Poly.symmetryConj Poly.symmetryConj := by
  rcases a with (_ | _) | (_ | _) <;> rfl

namespace Trimmed

/-- A polynomial is symmetric exactly when it has the coefficients of its conjugate. -/
theorem isConjSymmetric_iff (ha : a.Trimmed) :
    isConjSymmetric 0 a = true ↔ ∀ k, a.coeff k = (conjOfKind a.variant a).coeff k := by
  rw [conjOfKind_variant]
  cases a with
  | real p =>
    change PolynomialEquations.isConjSymmetric p 0 = true ↔
      ∀ k, (real p).coeff k = (real p.symmetryConj).coeff k
    rw [Poly.Trimmed.isConjSymmetric_iff ha]
    simp only [coeff_real, Complex.ofReal_inj]
  | complex p => exact Poly.Trimmed.isConjSymmetric_iff ha

/-- A polynomial is symmetric exactly when it is symmetric up to every positive tolerance. -/
theorem isConjSymmetric_iff_tolerant (ha : a.Trimmed) :
    isConjSymmetric 0 a = true ↔ ∀ tol : ℝ, 0 < tol → isConjSymmetric tol a = true := by
  cases a with
  | real p => exact Poly.Trimmed.isConjSymmetric_iff_tolerant ha
  | complex p => exact Poly.Trimmed.isConjSymmetric_iff_tolerant ha

/-- An ordinary polynomial is symmetric exactly when every coefficient is its own conjugate, negated
at odd exponents. -/
theorem isConjSymmetric_iff_of_ordinary (ha : a.Trimmed) (hordinary : a.variant = .ordinary) :
    isConjSymmetric 0 a = true ↔ ∀ k : ℤ, a.coeff k = (-1) ^ k * starRingEnd ℂ (a.coeff k) := by
  rw [ha.isConjSymmetric_iff, hordinary]
  exact forall_congr' fun k => by rw [conjOfKind, coeff_axisConj]

/-- A Laurent polynomial is symmetric exactly when opposite exponents have conjugate
coefficients. -/
theorem isConjSymmetric_iff_of_laurent (ha : a.Trimmed) (hlaurent : a.variant = .laurent) :
    isConjSymmetric 0 a = true ↔ ∀ k : ℤ, a.coeff k = starRingEnd ℂ (a.coeff (-k)) := by
  rw [ha.isConjSymmetric_iff, hlaurent]
  exact forall_congr' fun k => by rw [conjOfKind, ha.coeff_circleConj]

end Trimmed

end Predicate

section Results

/-- The computation returns a symmetric polynomial. -/
def ReturnsSymmetric (x : Except Failure (MixedPoly ℝ ℂ)) : Prop :=
  ∃ r, x = .ok r ∧ isConjSymmetric 0 r = true

/-- A result is symmetric when the same operation on the conjugates has the same coefficients. -/
theorem ReturnsImage.returnsSymmetric {v : Variant} {x y : Except Failure (MixedPoly ℝ ℂ)}
    {p q : Prop} {f g : ℤ → ℂ} (h : ReturnsImage (conjOfKind v) x y)
    (htrimmed : ∀ {r}, x = .ok r → r.Trimmed) (hx : Returns x p f) (hy : Returns y q g)
    (hkind : p ↔ v = .ordinary) (hsame : ∀ k, f k = g k) : ReturnsSymmetric x := by
  obtain ⟨r, hr, hvariant, hcoeff⟩ := hx
  obtain ⟨s, hs, -, hcoeff'⟩ := hy
  obtain ⟨r', s', hr', hs', himage⟩ := h
  obtain rfl := Except.ok.inj (hr.symm.trans hr')
  obtain rfl := Except.ok.inj (hs.symm.trans hs')
  refine ⟨r, hr, (htrimmed hr).isConjSymmetric_iff.mpr fun k => ?_⟩
  rw [Variant.eq_of_ordinary_iff (hvariant.trans hkind), himage, hcoeff, hcoeff', hsame]

/-- A sum is symmetric when the conjugates of its terms have the same sum. -/
theorem returnsSymmetric_add? {v : Variant} (ha : a.Trimmed) (hb : b.Trimmed)
    (hkind : a.variant = .ordinary ∧ b.variant = .ordinary ↔ v = .ordinary)
    (hsame : ∀ k, a.coeff k + b.coeff k = (conjOfKind v a).coeff k + (conjOfKind v b).coeff k) :
    ReturnsSymmetric (a.add? b) :=
  ((isConjugation_conjOfKind v).image_add ha hb).returnsSymmetric trimmed_of_add?
    (returns_add? a b) (returns_add? _ _) hkind hsame

/-- A product is symmetric when the conjugates of its factors have the same product. -/
theorem returnsSymmetric_mul? {v : Variant} (ha : a.Trimmed) (hb : b.Trimmed)
    (hkind : a.variant = .ordinary ∧ b.variant = .ordinary ↔ v = .ordinary)
    (hsame : ∀ k, ∑ᶠ i : ℤ, a.coeff i * b.coeff (k - i) =
      ∑ᶠ i : ℤ, (conjOfKind v a).coeff i * (conjOfKind v b).coeff (k - i)) :
    ReturnsSymmetric (a.mul? b) :=
  ((isConjugation_conjOfKind v).image_mul ha hb).returnsSymmetric trimmed_of_mul?
    (returns_mul? a b) (returns_mul? _ _) hkind hsame

/-- The sum and the product of two symmetric polynomials of one kind are symmetric. -/
theorem returnsSymmetric_of_symmetric (ha : a.Trimmed) (hb : b.Trimmed)
    (hvariant : a.variant = b.variant) (hasymmetric : isConjSymmetric 0 a = true)
    (hbsymmetric : isConjSymmetric 0 b = true) :
    ReturnsSymmetric (a.add? b) ∧ ReturnsSymmetric (a.mul? b) := by
  have hkind : a.variant = .ordinary ∧ b.variant = .ordinary ↔ a.variant = .ordinary := by
    rw [hvariant, and_self]
  rw [ha.isConjSymmetric_iff] at hasymmetric
  rw [hb.isConjSymmetric_iff, ← hvariant] at hbsymmetric
  exact ⟨returnsSymmetric_add? ha hb hkind fun k => by rw [← hasymmetric, ← hbsymmetric],
    returnsSymmetric_mul? ha hb hkind fun k => by simp only [← hasymmetric, ← hbsymmetric]⟩

/-- The terms of a product at an exponent may be taken in the order of the exponents of either
factor. -/
theorem finsum_mul_sub_comm (u v : ℤ → ℂ) (k : ℤ) :
    ∑ᶠ i : ℤ, u i * v (k - i) = ∑ᶠ i : ℤ, v i * u (k - i) := by
  rw [← finsum_comp_equiv (Equiv.subLeft k)]
  refine finsum_congr fun i => ?_
  rw [Equiv.subLeft_apply, sub_sub_cancel, mul_comm]

/-- A polynomial and its conjugate for a kind have a symmetric sum and a symmetric product, if these
are of that kind. -/
theorem returnsSymmetric_conjOfKind {v : Variant} (ha : a.Trimmed)
    (hkind : a.variant = .ordinary ∧ (conjOfKind v a).variant = .ordinary ↔ v = .ordinary) :
    ReturnsSymmetric (a.add? (conjOfKind v a)) ∧ ReturnsSymmetric ((conjOfKind v a).mul? a) := by
  have hconj := trimmed_conjOfKind v a
  have htwice := (isConjugation_conjOfKind v).coeff_twice ha
  constructor
  · refine returnsSymmetric_add? ha hconj hkind fun k => ?_
    rw [htwice, add_comm]
  · refine returnsSymmetric_mul? hconj ha (and_comm.trans hkind) fun k => ?_
    simp only [htwice]
    exact finsum_mul_sub_comm _ _ k

end Results

/-- An ordinary polynomial is symmetric exactly when every coefficient is its own conjugate, negated
at odd exponents, and a Laurent polynomial exactly when opposite exponents have conjugate
coefficients; this is the same as being symmetric up to every positive tolerance. Sums and products
of two symmetric polynomials of one kind are symmetric. So are the sum and the product of an
ordinary polynomial and its conjugate across the imaginary axis, and of any polynomial and its
conjugate across the unit circle. -/
theorem symmetry_laws (ha : a.Trimmed) (hb : b.Trimmed) :
    (a.variant = .ordinary → (isConjSymmetric 0 a = true ↔
      ∀ k : ℤ, a.coeff k = (-1) ^ k * starRingEnd ℂ (a.coeff k))) ∧
    (a.variant = .laurent → (isConjSymmetric 0 a = true ↔
      ∀ k : ℤ, a.coeff k = starRingEnd ℂ (a.coeff (-k)))) ∧
    (isConjSymmetric 0 a = true ↔ ∀ tol : ℝ, 0 < tol → isConjSymmetric tol a = true) ∧
    (a.variant = b.variant → isConjSymmetric 0 a = true → isConjSymmetric 0 b = true →
      ReturnsSymmetric (a.add? b) ∧ ReturnsSymmetric (a.mul? b)) ∧
    (b.variant = .ordinary →
      ReturnsSymmetric (b.add? b.axisConj) ∧ ReturnsSymmetric (b.axisConj.mul? b)) ∧
    ReturnsSymmetric (b.add? b.circleConj) ∧ ReturnsSymmetric (b.circleConj.mul? b) := by
  refine ⟨ha.isConjSymmetric_iff_of_ordinary, ha.isConjSymmetric_iff_of_laurent,
    ha.isConjSymmetric_iff_tolerant, returnsSymmetric_of_symmetric ha hb, fun hordinary => ?_, ?_⟩
  · refine returnsSymmetric_conjOfKind (v := .ordinary) hb ?_
    rw [conjOfKind, variant_axisConj, hordinary, and_self]
  · refine returnsSymmetric_conjOfKind (v := .laurent) hb ?_
    rw [conjOfKind, variant_circleConj]
    simp

/-- The ordinary polynomial `i s` is symmetric, and so are twice the polynomial and its square. -/
theorem symmetry_laws_imaginary :
    (complex (Poly.ofCoef #[0, Complex.I] "s") : MixedPoly ℝ ℂ).Trimmed ∧
      (complex (Poly.ofCoef #[0, Complex.I] "s") : MixedPoly ℝ ℂ).variant = .ordinary ∧
      isConjSymmetric 0 (complex (Poly.ofCoef #[0, Complex.I] "s")) = true ∧
      ReturnsSymmetric ((complex (Poly.ofCoef #[0, Complex.I] "s") : MixedPoly ℝ ℂ).add?
        (complex (Poly.ofCoef #[0, Complex.I] "s"))) ∧
      ReturnsSymmetric ((complex (Poly.ofCoef #[0, Complex.I] "s") : MixedPoly ℝ ℂ).mul?
        (complex (Poly.ofCoef #[0, Complex.I] "s"))) := by
  let a : MixedPoly ℝ ℂ := complex (Poly.ofCoef #[0, Complex.I] "s")
  have htrimmed : a.Trimmed := Poly.trimmed_ofCoef _ _
  have hordinary : a.variant = .ordinary := Poly.variant_ofCoef _ _
  obtain ⟨hiff, -, -, hclosed, -⟩ := symmetry_laws htrimmed htrimmed
  have hcoeff : ∀ k, a.coeff k = if k = 1 then Complex.I else 0 := by
    intro k
    rw [coeff_complex, Poly.coeff_ofCoef, windowCoeff, sub_zero]
    by_cases hk : 0 ≤ k
    · obtain ⟨n, rfl⟩ := Int.eq_ofNat_of_zero_le hk
      rcases n with _ | _ | n
      · rfl
      · rfl
      · rw [if_pos hk, if_neg (by omega), getD_of_size_le (by simp; omega)]
    · rw [if_neg hk, if_neg (by omega)]
  have hsymmetric : isConjSymmetric 0 a = true := by
    refine (hiff hordinary).mpr fun k => ?_
    rw [hcoeff]
    split
    · next hk => rw [hk, zpow_one, Complex.conj_I, neg_mul_neg, one_mul]
    · rw [map_zero, mul_zero]
  exact ⟨htrimmed, hordinary, hsymmetric, hclosed rfl hsymmetric hsymmetric⟩

end MixedPoly

end PolynomialEquations
