import PolynomialEquations.Proofs.Poly.Laurent
import PolynomialEquations.Proofs.Poly.Mirror
import PolynomialEquations.Proofs.Poly.Norm

/-!
# Roots on both sides of the unit circle

Reversing the coefficients of a real polynomial with a constant term inverts its complex roots. For
a polynomial that is its own reversal the roots inside the unit circle are the inverted roots
outside. When no root lies on the circle, the product of the linear factors inside, scaled so that
its squared coefficients add up to the middle coefficient, is a factor of the polynomial with
respect to reversal, up to the sign.
-/

namespace PolynomialEquations

open Polynomial

section Reversal

/-- Reversing a linear factor inverts its root. -/
theorem mirror_X_sub_C {r : ℂ} (hr : r ≠ 0) :
    (X - C r : ℂ[X]).mirror = C (-r) * (X - C r⁻¹) := by
  have hstart : (X - C r : ℂ[X]).natTrailingDegree = 0 :=
    natTrailingDegree_eq_zero.mpr (Or.inr (by simpa using hr))
  have hreverse : (X - C r : ℂ[X]).reverse = C (-r) * X + 1 := by
    rw [sub_eq_add_neg, ← C_neg, reverse_add_C, natDegree_X, pow_one, ← one_mul (X : ℂ[X]),
      reverse_mul_X, ← C_1, reverse_C, C_1, one_mul, add_comm]
  rw [mirror, hstart, hreverse, pow_zero, mul_one, mul_sub, ← C_mul, neg_mul, mul_inv_cancel₀ hr,
    C_neg, C_neg, C_1, sub_neg_eq_add]

/-- Reversing a product of linear factors inverts its roots. -/
theorem roots_mirror_prod {s : Multiset ℂ} (hs : (0 : ℂ) ∉ s) :
    ((s.map fun r => X - C r).prod).mirror.roots = s.map (·⁻¹) := by
  induction s using Multiset.induction_on with
  | empty =>
    rw [Multiset.map_zero, Multiset.prod_zero, ← C_1, mirror_C, roots_C, Multiset.map_zero]
  | cons r s ih =>
    rw [Multiset.mem_cons, not_or] at hs
    have hr : r ≠ 0 := Ne.symm hs.1
    have hfactor : C (-r) * (X - C r⁻¹) ≠ 0 :=
      mul_ne_zero (C_ne_zero.mpr (neg_ne_zero.mpr hr)) (X_sub_C_ne_zero _)
    have hrest : ((s.map fun r => X - C r).prod).mirror ≠ 0 :=
      mirror_eq_zero.not.mpr (monic_multiset_prod_of_monic _ _ fun r _ => monic_X_sub_C r).ne_zero
    rw [Multiset.map_cons, Multiset.prod_cons, mirror_mul_of_domain, mirror_X_sub_C hr,
      roots_mul (mul_ne_zero hfactor hrest), roots_C_mul _ (neg_ne_zero.mpr hr), roots_X_sub_C,
      ih hs.2, Multiset.map_cons, Multiset.singleton_add]

/-- Zero is no root of a polynomial with a constant term. -/
theorem ne_zero_of_mem_aroots {A : ℝ[X]} (hA : A.coeff 0 ≠ 0) {r : ℂ} (hr : r ∈ A.aroots ℂ) :
    r ≠ 0 := by
  rintro rfl
  have hvalue := (mem_aroots'.mp hr).2
  rw [← coeff_zero_eq_aeval_zero', Complex.coe_algebraMap, Complex.ofReal_eq_zero] at hvalue
  exact hA hvalue

/-- Reversing is the same over the complex numbers. -/
theorem map_mirror {A : ℝ[X]} (hA : A.coeff 0 ≠ 0) :
    A.mirror.map (algebraMap ℝ ℂ) = (A.map (algebraMap ℝ ℂ)).mirror := by
  have hmap : (A.map (algebraMap ℝ ℂ)).coeff 0 ≠ 0 := by
    rw [coeff_map]
    exact Complex.ofReal_ne_zero.mpr hA
  ext n
  rw [coeff_map, coeff_mirror_of_coeff_zero hA, coeff_mirror_of_coeff_zero hmap, coeff_map,
    natDegree_map_eq_of_injective (algebraMap ℝ ℂ).injective]

/-- Reversing a real polynomial with a constant term inverts its complex roots. -/
theorem aroots_mirror {A : ℝ[X]} (hA : A.coeff 0 ≠ 0) :
    A.mirror.aroots ℂ = (A.aroots ℂ).map (·⁻¹) := by
  have hlead : (A.leadingCoeff : ℂ) ≠ 0 := by
    rw [Complex.ofReal_ne_zero, leadingCoeff_ne_zero]
    rintro rfl
    exact hA (coeff_zero 0)
  rw [aroots_def, map_mirror hA, map_eq_prod_aroots, mirror_mul_of_domain, mirror_C,
    roots_C_mul _ hlead, roots_mirror_prod fun h => ne_zero_of_mem_aroots hA h rfl]

/-- Polynomials with the same roots are multiples of each other. -/
theorem eq_C_mul_of_aroots_eq {A B : ℝ[X]} (hA : A ≠ 0) (h : B.aroots ℂ = A.aroots ℂ) :
    B = C (B.leadingCoeff / A.leadingCoeff) * A := by
  have hlead : (A.leadingCoeff : ℂ) ≠ 0 :=
    Complex.ofReal_ne_zero.mpr (leadingCoeff_ne_zero.mpr hA)
  refine map_injective _ (algebraMap ℝ ℂ).injective ?_
  rw [Polynomial.map_mul, map_C, map_eq_prod_aroots A, map_eq_prod_aroots B, h, ← mul_assoc,
    ← C_mul, Complex.coe_algebraMap, Complex.ofReal_div, div_mul_cancel₀ _ hlead]

end Reversal

section Middle

variable {A F : ℝ[X]}

/-- The coefficient at half the degree. -/
noncomputable def middleCoeff (A : ℝ[X]) : ℝ := A.coeff (A.natDegree / 2)

theorem middleCoeff_C_mul {t : ℝ} (ht : t ≠ 0) (A : ℝ[X]) :
    middleCoeff (C t * A) = t * middleCoeff A := by
  rw [middleCoeff, natDegree_C_mul ht, coeff_C_mul]
  rfl

/-- In the middle of the product of a polynomial with its reversal its coefficients meet
themselves. -/
theorem middleCoeff_mirror_mul (hF : F.coeff 0 ≠ 0) :
    middleCoeff (F.mirror * F) = coefficientNorm F ^ 2 := by
  have hmiddle := coeff_mul_mirror F
  rw [natTrailingDegree_eq_zero.mpr (Or.inr hF), add_zero] at hmiddle
  rw [middleCoeff, mul_comm, natDegree_mul_mirror, Nat.mul_div_cancel_left _ two_pos, hmiddle,
    coefficientNorm, Real.sq_sqrt (Finset.sum_nonneg fun i _ => sq_nonneg _), Polynomial.sum]
  exact Finset.sum_congr rfl fun i _ => by rw [Real.norm_eq_abs, sq_abs]

end Middle

section Disk

/-- The complex roots in the open unit disk, by multiplicity. -/
noncomputable def diskRoots (A : ℝ[X]) : Multiset ℂ := (A.aroots ℂ).filter fun r => ‖r‖ < 1

/-- The polynomial `G` is the product of the linear factors of `A` inside the unit circle. -/
def IsDiskProduct (A G : ℝ[X]) : Prop :=
  G.map (algebraMap ℝ ℂ) = ((diskRoots A).map fun r => X - C r).prod

/-- The polynomial `F` is the product of the linear factors of `A` inside the unit circle, scaled so
that its squared coefficients add up to the modulus of the middle coefficient. -/
def IsDiskFactor (A F : ℝ[X]) : Prop :=
  ∃ G, IsDiskProduct A G ∧ F = G * C √(|middleCoeff A| / coefficientNorm G ^ 2)

variable {A F G : ℝ[X]}

/-- There is only one scaled product. -/
theorem IsDiskFactor.unique {F' : ℝ[X]} (hF : IsDiskFactor A F) (hF' : IsDiskFactor A F') :
    F = F' := by
  obtain ⟨G, hG, rfl⟩ := hF
  obtain ⟨G', hG', rfl⟩ := hF'
  obtain rfl : G = G' := map_injective _ (algebraMap ℝ ℂ).injective (hG.trans hG'.symm)
  rfl

namespace IsDiskProduct

/-- The product is monic. -/
theorem monic (hG : IsDiskProduct A G) : G.Monic := by
  have h := congrArg leadingCoeff hG
  rw [leadingCoeff_map, (monic_multiset_prod_of_monic _ _ fun r _ => monic_X_sub_C r).leadingCoeff,
    Complex.coe_algebraMap, Complex.ofReal_eq_one] at h
  exact h

/-- The roots of the product are the roots inside. -/
theorem aroots_eq (hG : IsDiskProduct A G) : G.aroots ℂ = diskRoots A := by
  rw [aroots_def, hG, roots_multiset_prod_X_sub_C]

/-- The product has a constant term if the polynomial has one. -/
theorem coeff_zero_ne_zero (hG : IsDiskProduct A G) (hA : A.coeff 0 ≠ 0) : G.coeff 0 ≠ 0 := by
  intro hzero
  have hroot : (0 : ℂ) ∈ G.aroots ℂ := by
    rw [mem_aroots, ← coeff_zero_eq_aeval_zero', hzero, map_zero]
    exact ⟨hG.monic.ne_zero, rfl⟩
  rw [hG.aroots_eq] at hroot
  exact ne_zero_of_mem_aroots hA (Multiset.mem_filter.mp hroot).1 rfl

end IsDiskProduct

/-- Inversion exchanges the roots inside the unit circle of a polynomial that is its own reversal
with those outside. -/
theorem isMirrored_aroots_inv (hA : A.mirror = A) (hzero : A.coeff 0 ≠ 0) :
    IsMirrored (A.aroots ℂ) (·⁻¹) (fun r => ‖r‖ < 1) (fun r => 1 < ‖r‖) where
  map_eq := by rw [← aroots_mirror hzero, hA]
  mirror_iff r hr := by
    rw [norm_inv, one_lt_inv₀ (norm_pos_iff.mpr (ne_zero_of_mem_aroots hzero hr))]
  disjoint r _ := lt_asymm

/-- Half of the roots lie inside exactly when none lies on the circle. -/
theorem two_mul_card_diskRoots_iff (hA : A.mirror = A) (hzero : A.coeff 0 ≠ 0) :
    2 * (diskRoots A).card = (A.aroots ℂ).card ↔ ∀ r ∈ A.aroots ℂ, ‖r‖ ≠ 1 := by
  rw [diskRoots, (isMirrored_aroots_inv hA hzero).two_mul_card_iff]
  exact forall₂_congr fun r _ => ne_iff_lt_or_gt.symm

/-- Without roots on the circle the product of the linear factors inside and its reversal have all
roots, so their product is a multiple of the polynomial. -/
theorem IsDiskProduct.exists_mirror_mul (hG : IsDiskProduct A G) (hA : A.mirror = A)
    (hzero : A.coeff 0 ≠ 0) (hroots : ∀ r ∈ A.aroots ℂ, ‖r‖ ≠ 1) :
    ∃ κ : ℝ, κ ≠ 0 ∧ G.mirror * G = C κ * A := by
  have hne : A ≠ 0 := fun h => hzero (by rw [h, coeff_zero])
  have hproduct : G.mirror * G ≠ 0 :=
    mul_ne_zero (mirror_eq_zero.not.mpr hG.monic.ne_zero) hG.monic.ne_zero
  have hall : (G.mirror * G).aroots ℂ = A.aroots ℂ := by
    rw [aroots_mul hproduct, aroots_mirror (hG.coeff_zero_ne_zero hzero), hG.aroots_eq, add_comm]
    exact (isMirrored_aroots_inv hA hzero).filter_add_map fun r hr =>
      lt_or_gt_of_ne (hroots r hr)
  exact ⟨_, div_ne_zero (leadingCoeff_ne_zero.mpr hproduct) (leadingCoeff_ne_zero.mpr hne),
    eq_C_mul_of_aroots_eq hne hall⟩

/-- The scaled product times its reversal is the polynomial up to the sign of the middle
coefficient, which is not zero. -/
theorem IsDiskProduct.mirror_mul_scaled (hG : IsDiskProduct A G) (hA : A.mirror = A)
    (hzero : A.coeff 0 ≠ 0) (hroots : ∀ r ∈ A.aroots ℂ, ‖r‖ ≠ 1) :
    ∃ t : ℝ, t = √(|middleCoeff A| / coefficientNorm G ^ 2) ∧ 0 < t ∧ middleCoeff A ≠ 0 ∧
      (G * C t).mirror * (G * C t) = C (|middleCoeff A| / middleCoeff A) * A := by
  obtain ⟨κ, hκ, hmul⟩ := hG.exists_mirror_mul hA hzero hroots
  have hnorm : 0 < coefficientNorm G ^ 2 :=
    sq_pos_of_ne_zero (coefficientNorm_eq_zero_iff.not.mpr hG.monic.ne_zero)
  have hmiddle : coefficientNorm G ^ 2 = κ * middleCoeff A := by
    rw [← middleCoeff_mirror_mul (hG.coeff_zero_ne_zero hzero), hmul, middleCoeff_C_mul hκ]
  have hne : middleCoeff A ≠ 0 := by
    intro h
    rw [h, mul_zero] at hmiddle
    exact hnorm.ne' hmiddle
  have hsquare : √(|middleCoeff A| / coefficientNorm G ^ 2) *
      √(|middleCoeff A| / coefficientNorm G ^ 2) * κ = |middleCoeff A| / middleCoeff A := by
    rw [Real.mul_self_sqrt (div_nonneg (abs_nonneg _) hnorm.le), hmiddle]
    field_simp
  refine ⟨_, rfl, Real.sqrt_pos.mpr (div_pos (abs_pos.mpr hne) hnorm), hne, ?_⟩
  rw [mirror_mul_of_domain, mirror_C, ← hsquare, C_mul, C_mul, mul_assoc _ (C κ) A, ← hmul]
  ring

/-- A polynomial with its roots inside the unit circle that solves `F̃ F = ± A`, where `F̃` is the
reversal and the sign is that of the middle coefficient of `A`. -/
structure IsDiskSolution (A F : ℝ[X]) : Prop where
  /-- The leading coefficient is positive. -/
  leadingCoeff_pos : 0 < F.leadingCoeff
  /-- All roots lie inside the unit circle, and none is zero. -/
  roots_inside : ∀ r : ℂ, aeval r F = 0 → r ≠ 0 ∧ ‖r‖ < 1
  /-- The degree is half that of `A`. -/
  two_mul_natDegree : 2 * F.natDegree = A.natDegree
  /-- The equation is solved when the middle coefficient is positive. -/
  mirror_mul : 0 < middleCoeff A → F.mirror * F = A
  /-- The equation is solved up to the sign when the middle coefficient is negative. -/
  mirror_mul_neg : middleCoeff A < 0 → F.mirror * F = -A

/-- A solution has a constant term. -/
theorem IsDiskSolution.coeff_zero_ne_zero (h : IsDiskSolution A F) : F.coeff 0 ≠ 0 := by
  intro hvalue
  refine (h.roots_inside 0 ?_).1 rfl
  rw [← coeff_zero_eq_aeval_zero', hvalue, map_zero]

/-- Without roots on the circle the scaled product is a solution. -/
theorem IsDiskFactor.isDiskSolution (hF : IsDiskFactor A F) (hA : A.mirror = A)
    (hzero : A.coeff 0 ≠ 0) (hroots : ∀ r ∈ A.aroots ℂ, ‖r‖ ≠ 1) : IsDiskSolution A F := by
  obtain ⟨G, hG, rfl⟩ := hF
  obtain ⟨t, hscale, ht, hne, hproduct⟩ := hG.mirror_mul_scaled hA hzero hroots
  rw [← hscale]
  have hinside : (G * C t).aroots ℂ = diskRoots A := by
    rw [mul_comm, aroots_C_mul _ ht.ne', hG.aroots_eq]
  constructor
  case leadingCoeff_pos =>
    rw [leadingCoeff_mul, leadingCoeff_C, hG.monic.leadingCoeff, one_mul]
    exact ht
  case roots_inside =>
    intro r hr
    have hmem : r ∈ diskRoots A := by
      rw [← hinside, mem_aroots]
      exact ⟨mul_ne_zero hG.monic.ne_zero (C_ne_zero.mpr ht.ne'), hr⟩
    obtain ⟨hmem, hnorm⟩ := Multiset.mem_filter.mp hmem
    exact ⟨ne_zero_of_mem_aroots hzero hmem, hnorm⟩
  case two_mul_natDegree =>
    have hhalf := (two_mul_card_diskRoots_iff hA hzero).mpr hroots
    rwa [← hinside, IsAlgClosed.card_aroots_eq_natDegree,
      IsAlgClosed.card_aroots_eq_natDegree] at hhalf
  case mirror_mul =>
    intro hpos
    rw [hproduct, abs_of_pos hpos, div_self hne, C_1, one_mul]
  case mirror_mul_neg =>
    intro hneg
    rw [hproduct, abs_of_neg hneg, neg_div, div_self hne, C_neg, C_1, neg_one_mul]

/-- A multiple of a polynomial is longer by the square of the factor. -/
theorem coefficientNorm_C_mul_sq {t : ℝ} (ht : t ≠ 0) (hF : F.coeff 0 ≠ 0) :
    coefficientNorm (C t * F) ^ 2 = t ^ 2 * coefficientNorm F ^ 2 := by
  have hcoeff : (C t * F).coeff 0 ≠ 0 := by
    rw [coeff_C_mul]
    exact mul_ne_zero ht hF
  have hmul : (C t * F).mirror * (C t * F) = C (t ^ 2) * (F.mirror * F) := by
    rw [mirror_mul_of_domain, mirror_C, C_pow]
    ring
  rw [← middleCoeff_mirror_mul hcoeff, hmul, middleCoeff_C_mul (pow_ne_zero 2 ht),
    middleCoeff_mirror_mul hF]

/-- A polynomial with a positive leading coefficient, a constant term and all roots inside is the
factor of its product with its reversal. -/
theorem isDiskFactor_self (hlead : 0 < F.leadingCoeff) (hzero : F.coeff 0 ≠ 0)
    (hroots : ∀ r ∈ F.aroots ℂ, ‖r‖ < 1) : IsDiskFactor (F.mirror * F) F := by
  have hF : F ≠ 0 := leadingCoeff_ne_zero.mp hlead.ne'
  have hnorm : 0 < coefficientNorm F ^ 2 :=
    sq_pos_of_ne_zero (coefficientNorm_eq_zero_iff.not.mpr hF)
  have hdisk : diskRoots (F.mirror * F) = F.aroots ℂ := by
    have hmirrored : ((F.aroots ℂ).map (·⁻¹)).filter (fun r => ‖r‖ < 1) = 0 := by
      rw [Multiset.filter_eq_nil]
      intro r hr
      obtain ⟨u, hu, rfl⟩ := Multiset.mem_map.mp hr
      have hpos := norm_pos_iff.mpr (ne_zero_of_mem_aroots hzero hu)
      rw [norm_inv, not_lt]
      exact (one_le_inv₀ hpos).mpr (hroots u hu).le
    rw [diskRoots, aroots_mul (mul_ne_zero (mirror_eq_zero.not.mpr hF) hF), Multiset.filter_add,
      aroots_mirror hzero, hmirrored, zero_add, Multiset.filter_eq_self.mpr hroots]
  have hscale : √(|middleCoeff (F.mirror * F)| /
      coefficientNorm (C F.leadingCoeff⁻¹ * F) ^ 2) = F.leadingCoeff := by
    rw [middleCoeff_mirror_mul hzero, coefficientNorm_C_mul_sq (inv_ne_zero hlead.ne') hzero,
      abs_of_pos hnorm, inv_pow, div_mul_cancel_right₀ hnorm.ne', inv_inv, Real.sqrt_sq hlead.le]
  refine ⟨C F.leadingCoeff⁻¹ * F, ?_, ?_⟩
  · rw [IsDiskProduct, hdisk, Polynomial.map_mul, map_C, map_eq_prod_aroots F, ← mul_assoc, ← C_mul,
      Complex.coe_algebraMap, ← Complex.ofReal_mul, inv_mul_cancel₀ hlead.ne', Complex.ofReal_one,
      C_1, one_mul]
  · rw [hscale, mul_right_comm, ← C_mul, inv_mul_cancel₀ hlead.ne', C_1, one_mul]

end Disk

end PolynomialEquations
