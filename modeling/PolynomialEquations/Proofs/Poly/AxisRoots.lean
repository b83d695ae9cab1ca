import PolynomialEquations.Proofs.Poly.Conjugation
import PolynomialEquations.Proofs.Poly.Mirror

/-!
# Roots on both sides of the imaginary axis

Conjugating a real polynomial across the imaginary axis reflects its complex roots in that axis. For
a polynomial that is its own conjugate the roots on the left are the reflected roots on the right.
When no root lies on the axis, the product of the linear factors on the left, scaled by the root of
the leading coefficient, is a factor of the polynomial with respect to conjugation, up to the sign.
-/

namespace PolynomialEquations

open Polynomial

/-- The reflection of a complex number in the imaginary axis. -/
def axisMirror (r : ℂ) : ℂ := -starRingEnd ℂ r

@[simp] theorem re_axisMirror (r : ℂ) : (axisMirror r).re = -r.re := by
  rw [axisMirror, Complex.neg_re, Complex.conj_re]

section Conjugate

/-- The conjugate of a real polynomial is the same over the complex numbers. -/
theorem map_axisConjugate (p : ℝ[X]) :
    (axisConjugate p).map (algebraMap ℝ ℂ) = axisConjugate (p.map (algebraMap ℝ ℂ)) := by
  ext n
  rw [coeff_map, coeff_axisConjugate, coeff_axisConjugate, coeff_map, map_mul, map_pow, map_neg,
    map_one, conj_trivial]
  congr 1
  exact (Complex.conj_ofReal _).symm

/-- The roots of the conjugate are the reflected roots. -/
theorem aroots_axisConjugate (p : ℝ[X]) :
    (axisConjugate p).aroots ℂ = (p.aroots ℂ).map axisMirror := by
  rw [aroots_def, map_axisConjugate, axisConjugate_apply, roots_comp_neg_X,
    (IsAlgClosed.splits _).roots_map, Multiset.map_map]
  rfl

/-- Conjugating a product of linear factors reflects its roots, up to the sign. -/
theorem axisConjugate_prod (s : Multiset ℂ) :
    axisConjugate ((s.map fun r => X - C r).prod : ℂ[X]) =
      (-1) ^ s.card * ((s.map axisMirror).map fun r => X - C r).prod := by
  have hfactor : ∀ r : ℂ, axisConjugate (X - C r) = -(X - C (axisMirror r)) := by
    intro r
    rw [axisConjugate_apply, Polynomial.map_sub, map_X, map_C, sub_comp, X_comp, C_comp, axisMirror,
      C_neg, sub_neg_eq_add, neg_add']
  rw [map_multiset_prod, Multiset.map_map, ← Multiset.card_map axisMirror s,
    ← Multiset.card_map (fun r => (X - C r : ℂ[X])), ← Multiset.prod_map_neg, Multiset.map_map,
    Multiset.map_map]
  simp only [Function.comp_def, hfactor]

end Conjugate

section Left

/-- The complex roots in the open left half plane, by multiplicity. -/
noncomputable def leftRoots (A : ℝ[X]) : Multiset ℂ := (A.aroots ℂ).filter fun r => r.re < 0

/-- The polynomial `F` is the product of the linear factors of `A` on the left, scaled by the root
of the leading coefficient. -/
def IsLeftFactor (A F : ℝ[X]) : Prop :=
  F.map (algebraMap ℝ ℂ) =
    C (√|A.leadingCoeff| : ℂ) * ((leftRoots A).map fun r => X - C r).prod

variable {A F : ℝ[X]}

namespace IsLeftFactor

/-- There is only one such product. -/
theorem unique {G : ℝ[X]} (hF : IsLeftFactor A F) (hG : IsLeftFactor A G) : F = G :=
  map_injective _ (algebraMap ℝ ℂ).injective (hF.trans hG.symm)

/-- The factor has the scale as its leading coefficient. -/
theorem leadingCoeff_eq (hF : IsLeftFactor A F) : F.leadingCoeff = √|A.leadingCoeff| := by
  have h := congrArg leadingCoeff hF
  rw [leadingCoeff_map, leadingCoeff_mul, leadingCoeff_C,
    (monic_multiset_prod_of_monic _ _ fun r _ => monic_X_sub_C r).leadingCoeff, mul_one] at h
  exact Complex.ofReal_injective h

/-- The factor has a positive leading coefficient. -/
theorem leadingCoeff_pos (hF : IsLeftFactor A F) (hA : A ≠ 0) : 0 < F.leadingCoeff := by
  rw [hF.leadingCoeff_eq, Real.sqrt_pos, abs_pos]
  exact leadingCoeff_ne_zero.mpr hA

/-- The roots of the factor are the roots on the left. -/
theorem aroots_eq (hF : IsLeftFactor A F) (hA : A ≠ 0) : F.aroots ℂ = leftRoots A := by
  have hscale : (√|A.leadingCoeff| : ℂ) ≠ 0 := by
    rw [Complex.ofReal_ne_zero, ← hF.leadingCoeff_eq]
    exact (hF.leadingCoeff_pos hA).ne'
  rw [aroots_def, hF, roots_C_mul _ hscale, roots_multiset_prod_X_sub_C]

end IsLeftFactor

/-- The reflection in the axis exchanges the roots on the left of a polynomial that is its own
conjugate with those on the right. -/
theorem isMirrored_aroots (hA : axisConjugate A = A) :
    IsMirrored (A.aroots ℂ) axisMirror (fun r => r.re < 0) (fun r => 0 < r.re) where
  map_eq := by rw [← aroots_axisConjugate, hA]
  mirror_iff r _ := by rw [re_axisMirror, neg_pos]
  disjoint r _ := lt_asymm

/-- Half of the roots lie on the left exactly when none lies on the axis. -/
theorem two_mul_card_leftRoots_iff (hA : axisConjugate A = A) :
    2 * (leftRoots A).card = A.natDegree ↔ ∀ r ∈ A.aroots ℂ, r.re ≠ 0 := by
  rw [← IsAlgClosed.card_aroots_eq_natDegree (p := A) (B := ℂ), leftRoots,
    (isMirrored_aroots hA).two_mul_card_iff]
  exact forall₂_congr fun r _ => ne_iff_lt_or_gt.symm

/-- Without roots on the axis the roots on the left and their reflections are all roots. -/
theorem map_axisMirror_add_leftRoots (hA : axisConjugate A = A)
    (hroots : ∀ r ∈ A.aroots ℂ, r.re ≠ 0) :
    (leftRoots A).map axisMirror + leftRoots A = A.aroots ℂ := by
  rw [add_comm]
  exact (isMirrored_aroots hA).filter_add_map fun r hr => lt_or_gt_of_ne (hroots r hr)

/-- The signs of conjugation and of the absolute value amount to one sign. -/
theorem exists_sign_mul (n : ℕ) (t : ℝ) :
    ∃ ε : ℝ, (ε = 1 ∨ ε = -1) ∧ (-1) ^ n * |t| = ε * t := by
  rcases neg_one_pow_eq_or ℝ n with hpow | hpow <;> rcases abs_choice t with habs | habs <;>
    rw [hpow, habs]
  · exact ⟨1, Or.inl rfl, rfl⟩
  · exact ⟨-1, Or.inr rfl, by ring⟩
  · exact ⟨-1, Or.inr rfl, rfl⟩
  · exact ⟨1, Or.inl rfl, by ring⟩

/-- Without roots on the axis the factor times its conjugate is the polynomial up to the sign. -/
theorem exists_sign_axisConjugate_mul (hA : axisConjugate A = A)
    (hroots : ∀ r ∈ A.aroots ℂ, r.re ≠ 0) (hF : IsLeftFactor A F) :
    ∃ ε : ℝ, (ε = 1 ∨ ε = -1) ∧ axisConjugate F * F = C ε * A := by
  obtain ⟨ε, hε, hsign⟩ := exists_sign_mul (leftRoots A).card A.leadingCoeff
  refine ⟨ε, hε, map_injective _ (algebraMap ℝ ℂ).injective ?_⟩
  let k : ℂ := √|A.leadingCoeff|
  have hk : axisConjugate (C k : ℂ[X]) = C k := by
    rw [axisConjugate_apply, map_C, C_comp, Complex.conj_ofReal]
  have hsquare : k * k = (|A.leadingCoeff| : ℝ) := by
    rw [← Complex.ofReal_mul, Real.mul_self_sqrt (abs_nonneg _)]
  have hmap : F.map (algebraMap ℝ ℂ) = C k * ((leftRoots A).map fun r => X - C r).prod := hF
  calc (axisConjugate F * F).map (algebraMap ℝ ℂ)
      = axisConjugate (F.map (algebraMap ℝ ℂ)) * F.map (algebraMap ℝ ℂ) := by
        rw [Polynomial.map_mul, map_axisConjugate]
    _ = C (k * k) * (-1) ^ (leftRoots A).card *
          ((((leftRoots A).map axisMirror).map fun r => X - C r).prod *
            ((leftRoots A).map fun r => X - C r).prod) := by
        rw [hmap, map_mul, hk, axisConjugate_prod, C_mul]
        ring
    _ = C (((-1) ^ (leftRoots A).card * |A.leadingCoeff| : ℝ) : ℂ) *
          ((A.aroots ℂ).map fun r => X - C r).prod := by
        rw [← Multiset.prod_add, ← Multiset.map_add, map_axisMirror_add_leftRoots hA hroots,
          hsquare]
        push_cast
        rw [C_mul, C_pow, C_neg, C_1]
        ring
    _ = (C ε * A).map (algebraMap ℝ ℂ) := by
        rw [hsign, Polynomial.map_mul, map_C, map_eq_prod_aroots A, ← mul_assoc, ← C_mul]
        push_cast
        rfl

/-- The sign is read off at zero, where the product with the conjugate is a square. -/
theorem axisConjugate_mul_eq (hA : axisConjugate A = A) (hroots : ∀ r ∈ A.aroots ℂ, r.re ≠ 0)
    (hF : IsLeftFactor A F) :
    (0 < A.coeff 0 → axisConjugate F * F = A) ∧ (A.coeff 0 < 0 → axisConjugate F * F = -A) := by
  obtain ⟨ε, hε, hproduct⟩ := exists_sign_axisConjugate_mul hA hroots hF
  have hzero : F.coeff 0 * F.coeff 0 = ε * A.coeff 0 := by
    have h := congrArg (fun p => p.coeff 0) hproduct
    rwa [mul_coeff_zero, coeff_axisConjugate, conj_trivial, pow_zero, mul_one, coeff_C_mul] at h
  have hnonneg := mul_self_nonneg (F.coeff 0)
  rcases hε with rfl | rfl
  · rw [one_mul] at hzero
    exact ⟨fun _ => by rw [hproduct, C_1, one_mul], fun hneg => absurd hneg (by linarith)⟩
  · rw [neg_one_mul] at hzero
    exact ⟨fun hpos => absurd hpos (by linarith),
      fun _ => by rw [hproduct, C_neg, C_1, neg_one_mul]⟩

/-- A polynomial with a positive leading coefficient and all roots on the left is the factor of its
product with its conjugate. -/
theorem isLeftFactor_self (hlead : 0 < F.leadingCoeff) (hroots : ∀ r ∈ F.aroots ℂ, r.re < 0) :
    IsLeftFactor (axisConjugate F * F) F := by
  have hF : F ≠ 0 := leadingCoeff_ne_zero.mp hlead.ne'
  have hscale : √|(axisConjugate F * F).leadingCoeff| = F.leadingCoeff := by
    rw [leadingCoeff_mul, leadingCoeff_axisConjugate, conj_trivial, abs_mul, abs_mul, abs_pow,
      abs_neg, abs_one, one_pow, mul_one, abs_mul_abs_self, Real.sqrt_mul_self hlead.le]
  have hleft : leftRoots (axisConjugate F * F) = F.aroots ℂ := by
    have hmirrored : ((F.aroots ℂ).map axisMirror).filter (fun r => r.re < 0) = 0 := by
      rw [Multiset.filter_eq_nil]
      intro r hr
      obtain ⟨u, hu, rfl⟩ := Multiset.mem_map.mp hr
      rw [re_axisMirror]
      linarith [hroots u hu]
    rw [leftRoots, aroots_mul (mul_ne_zero (axisConjugate_eq_zero_iff.not.mpr hF) hF),
      Multiset.filter_add, aroots_axisConjugate, hmirrored, zero_add,
      Multiset.filter_eq_self.mpr hroots]
  rw [IsLeftFactor, hscale, hleft, map_eq_prod_aroots]

end Left

end PolynomialEquations
