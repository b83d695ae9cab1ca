import PolynomialEquations.Mixed.Stability
import PolynomialEquations.Proofs.Kernel.Roots
import PolynomialEquations.Proofs.Mixed.Evaluation
import PolynomialEquations.Proofs.Mixed.Expression

/-!
# Stability depends on the values alone

The stability tests look at the roots of the stored coefficients. A number other than zero is such a
root exactly when the polynomial has the value zero there, wherever its exponents start; zero itself
may be a root of one kind and not of another, but lies in both regions. So the answer follows from
the places where the values vanish, and these are the places for the factors of a product taken
together, stay where they are under shifts and numerical factors, and move with the variable.
-/

namespace PolynomialEquations

open Polynomial

namespace MixedPoly

variable {a b r : MixedPoly ℝ ℂ} {ofReal : RootFinder ℝ ℂ} {ofComplex : RootFinder ℂ ℂ}

/-- A polynomial other than zero, as a constructor builds it. -/
structure IsNonzero (a : MixedPoly ℝ ℂ) : Prop where
  /-- There is no padding at the ends of the window. -/
  trimmed : a.Trimmed
  /-- Some coefficient is not zero. -/
  isZero_eq : a.isZero = false

/-- A trimmed polynomial with a coefficient other than zero is not zero. -/
theorem Trimmed.isNonzero (ha : a.Trimmed) {k : ℤ} (hk : a.coeff k ≠ 0) : a.IsNonzero where
  trimmed := ha
  isZero_eq := (isZero_eq_false_iff a).mpr ⟨k, hk⟩

/-- A polynomial other than zero has a coefficient other than zero. -/
theorem IsNonzero.exists_coeff_ne_zero (ha : a.IsNonzero) : ∃ k, a.coeff k ≠ 0 :=
  (isZero_eq_false_iff a).mp ha.isZero_eq

section Roots

/-- All roots other than zero lie in the region. -/
def RootsLieIn (region : ℂ → Prop) (a : MixedPoly ℝ ℂ) : Prop :=
  ∀ x : MixedScalar ℝ ℂ, x.toComplex ≠ 0 → a.valueAt x = 0 → region x.toComplex

/-- A number other than zero is a root exactly when it is a root of the stored coefficients. -/
theorem valueAt_eq_zero_iff (a : MixedPoly ℝ ℂ) {x : MixedScalar ℝ ℂ} (hx : x.toComplex ≠ 0) :
    a.valueAt x = 0 ↔ a.toComplex.toPolynomial.eval x.toComplex = 0 := by
  rw [valueAt_eq_eval, Poly.eval_eq_zpow_mul (Or.inl hx), mul_eq_zero,
    or_iff_right (zpow_ne_zero _ hx)]

/-- The stored coefficients of a polynomial other than zero are not all zero. -/
theorem IsNonzero.toPolynomial_ne_zero (ha : a.IsNonzero) : a.toComplex.toPolynomial ≠ 0 :=
  Poly.toPolynomial_ne_zero (by rw [isZero_toComplex, ha.isZero_eq])

/-- For a region around zero it does not matter whether zero is a root. -/
theorem IsNonzero.rootsLieIn_iff (ha : a.IsNonzero) {region : ℂ → Prop} (hzero : region 0) :
    a.RootsLieIn region ↔ ∀ z ∈ a.toComplex.toPolynomial.roots, region z := by
  constructor
  · intro h z hz
    by_cases hz0 : z = 0
    · rwa [hz0]
    · have hroot := (valueAt_eq_zero_iff a (x := .complex z) hz0).mpr (mem_roots'.mp hz).2
      exact h (.complex z) hz0 hroot
  · intro h x hx hvalue
    exact h _ (mem_roots'.mpr ⟨ha.toPolynomial_ne_zero, (valueAt_eq_zero_iff a hx).mp hvalue⟩)

/-- With exact root finders the roots are those of the stored coefficients over the complex
numbers. -/
theorem Trimmed.exists_roots (hreal : ofReal.FindsRoots) (hcomplex : ofComplex.FindsRoots)
    (ha : a.Trimmed) : ∃ roots, a.ask (Poly.roots ofReal) (Poly.roots ofComplex) = .ok roots ∧
      (roots : Multiset ℂ) = a.toComplex.toPolynomial.roots := by
  cases a with
  | real p =>
    obtain ⟨roots, hroots, hall⟩ := hreal.exists_roots ha
    refine ⟨roots, hroots, hall.trans ?_⟩
    exact congrArg Polynomial.roots (Poly.toPolynomial_map Complex.ofRealHom p).symm
  | complex p =>
    obtain ⟨roots, hroots, hall⟩ := hcomplex.exists_roots ha
    refine ⟨roots, hroots, hall.trans ?_⟩
    rw [aroots_def, Algebra.algebraMap_self, Polynomial.map_id]
    rfl

/-- The product of polynomials other than zero is not zero, and its roots are those of both. -/
theorem IsNonzero.exists_mul? (ha : a.IsNonzero) (hb : b.IsNonzero) :
    ∃ r, a.mul? b = .ok r ∧ r.IsNonzero ∧
      ∀ region, r.RootsLieIn region ↔ a.RootsLieIn region ∧ b.RootsLieIn region := by
  obtain ⟨r, hr, hzero, -⟩ :=
    ha.trimmed.exists_mul?_degree hb.trimmed ha.isZero_eq hb.isZero_eq
  refine ⟨r, hr, ⟨trimmed_of_mul? hr, hzero⟩, fun region => ?_⟩
  have hzeros : ∀ x : MixedScalar ℝ ℂ, x.toComplex ≠ 0 →
      (r.valueAt x = 0 ↔ a.valueAt x = 0 ∨ b.valueAt x = 0) := by
    intro x hx
    obtain ⟨s, hs, hvalue⟩ := ha.trimmed.exists_mul? hb.trimmed (Or.inl hx) (Or.inl hx)
    obtain rfl := Except.ok.inj (hr.symm.trans hs)
    rw [hvalue, mul_eq_zero]
  unfold RootsLieIn
  rw [← forall₂_and]
  exact forall₂_congr fun x hx => by rw [hzeros x hx, or_imp]

/-- A constant other than zero has no roots. -/
theorem rootsLieIn_constant {t : MixedScalar ℝ ℂ} (ht : t.toComplex ≠ 0) (s : String)
    (region : ℂ → Prop) : (constant s t).IsNonzero ∧ (constant s t).RootsLieIn region := by
  have htrimmed : (constant s t).Trimmed := by cases t <;> exact Poly.trimmed_ofCoef _ s
  have hcoeff := coeff_constant t s
  refine ⟨htrimmed.isNonzero (k := 0) (by rwa [hcoeff, if_pos rfl]), fun x hx hvalue => ?_⟩
  rw [htrimmed.valueAt_of_coeff hcoeff (Or.inl hx), powerSum, finsum_eq_single _ 0, if_pos rfl,
    zpow_zero, mul_one] at hvalue
  · exact absurd hvalue ht
  · intro k hk
    rw [if_neg hk, zero_mul]

/-- Scaling the variable moves the roots. -/
theorem IsNonzero.rootsLieIn_scale (ha : a.IsNonzero) {t : MixedScalar ℝ ℂ}
    (ht : t.toComplex ≠ 0) {region : ℂ → Prop}
    (hregion : ∀ z, region (t.toComplex * z) ↔ region z) :
    (a.scale t).RootsLieIn region ↔ a.RootsLieIn region := by
  have hvalue : ∀ x y : MixedScalar ℝ ℂ, x.toComplex ≠ 0 →
      y.toComplex = t.toComplex * x.toComplex → (a.scale t).valueAt x = a.valueAt y :=
    fun x y hx hy => ha.trimmed.valueAt_scale ht (Or.inl hx) hy
  constructor
  · intro h y hy hroot
    let x : MixedScalar ℝ ℂ := .complex (t.toComplex⁻¹ * y.toComplex)
    have hback : t.toComplex * x.toComplex = y.toComplex := mul_inv_cancel_left₀ ht _
    have hx : x.toComplex ≠ 0 := right_ne_zero_of_mul (hback.trans_ne hy)
    rw [← hback, hregion]
    exact h x hx ((hvalue x y hx hback.symm).trans hroot)
  · intro h x hx hroot
    let y : MixedScalar ℝ ℂ := .complex (t.toComplex * x.toComplex)
    rw [← hregion]
    exact h y (mul_ne_zero ht hx) ((hvalue x y hx rfl).symm.trans hroot)

end Roots

section Tests

variable {test : MixedPoly ℝ ℂ → Except Failure Bool} {region : ℂ → Prop}

/-- The test answers for every polynomial other than zero, and says whether its roots lie in the
region. -/
def LocatesRoots (test : MixedPoly ℝ ℂ → Except Failure Bool) (region : ℂ → Prop) : Prop :=
  ∀ a, a.IsNonzero → ∃ answer, test a = .ok answer ∧ (answer = true ↔ a.RootsLieIn region)

/-- A test that looks at all roots found locates the roots. -/
theorem locatesRoots_of_all (hreal : ofReal.FindsRoots) (hcomplex : ofComplex.FindsRoots)
    (hzero : region 0) {inside : ℂ → Bool} (hinside : ∀ z, inside z = true ↔ region z)
    (htest : ∀ a, test a = do
      let roots ← a.ask (Poly.roots ofReal) (Poly.roots ofComplex)
      return roots.all inside) : LocatesRoots test region := by
  intro a ha
  obtain ⟨roots, hroots, hall⟩ := ha.trimmed.exists_roots hreal hcomplex
  refine ⟨roots.all inside, by rw [htest, hroots]; rfl, ?_⟩
  rw [ha.rootsLieIn_iff hzero, ← hall, List.all_eq_true]
  exact forall₂_congr fun z _ => hinside z

/-- The test for the unit disk locates the roots. -/
theorem locatesRoots_isDiskStable (hreal : ofReal.FindsRoots) (hcomplex : ofComplex.FindsRoots) :
    LocatesRoots (isDiskStable ofReal ofComplex) fun z => ‖z‖ ≤ 1 := by
  have hzero : ‖(0 : ℂ)‖ ≤ 1 := norm_zero.trans_le zero_le_one
  refine locatesRoots_of_all hreal hcomplex hzero (fun z => decide_eq_true_iff) fun a => ?_
  cases a <;> rfl

/-- The test for the left half plane locates the roots. -/
theorem locatesRoots_isHalfPlaneStable (hreal : ofReal.FindsRoots)
    (hcomplex : ofComplex.FindsRoots) :
    LocatesRoots (isHalfPlaneStable ofReal ofComplex) fun z => z.re ≤ 0 := by
  refine locatesRoots_of_all hreal hcomplex Complex.zero_re.le (fun z => decide_eq_true_iff)
    fun a => ?_
  cases a <;> rfl

namespace LocatesRoots

/-- A polynomial whose roots lie in the region passes. -/
theorem eq_true (h : LocatesRoots test region) (ha : a.IsNonzero) {answer : Bool}
    (hanswer : test a = .ok answer) (hroots : a.RootsLieIn region) : answer = true := by
  obtain ⟨p, hp, hiff⟩ := h a ha
  rw [Except.ok.inj (hanswer.symm.trans hp)]
  exact hiff.mpr hroots

/-- A polynomial with a root outside the region does not pass. -/
theorem eq_false (h : LocatesRoots test region) (ha : a.IsNonzero) {answer : Bool}
    (hanswer : test a = .ok answer) {x : MixedScalar ℝ ℂ} (hx : x.toComplex ≠ 0)
    (hroot : a.valueAt x = 0) (hout : ¬region x.toComplex) : answer = false := by
  obtain ⟨p, hp, hiff⟩ := h a ha
  rw [Except.ok.inj (hanswer.symm.trans hp), ← Bool.not_eq_true, hiff]
  exact fun hroots => hout (hroots x hx hroot)

/-- Polynomials whose roots lie in the region together get the same answer. -/
theorem congr (h : LocatesRoots test region) (ha : a.IsNonzero) (hb : b.IsNonzero)
    (hroots : b.RootsLieIn region ↔ a.RootsLieIn region) : test b = test a := by
  obtain ⟨p, hp, hpiff⟩ := h a ha
  obtain ⟨q, hq, hqiff⟩ := h b hb
  rw [hp, hq, Bool.eq_iff_iff.mpr ((hqiff.trans hroots).trans hpiff.symm)]

/-- Polynomials that vanish at the same numbers get the same answer. -/
theorem congr_of_zeros (h : LocatesRoots test region) (ha : a.IsNonzero) (hb : b.IsNonzero)
    (hzeros : ∀ x : MixedScalar ℝ ℂ, x.toComplex ≠ 0 → (b.valueAt x = 0 ↔ a.valueAt x = 0)) :
    test b = test a :=
  h.congr ha hb (forall₂_congr fun x hx => imp_congr_left (hzeros x hx))

/-- A scaling of the variable that maps the region onto itself gets the answer of the polynomial. -/
theorem scale (h : LocatesRoots test region) (ha : a.IsNonzero) {t : MixedScalar ℝ ℂ}
    (ht : t.toComplex ≠ 0) (hregion : ∀ z, region (t.toComplex * z) ↔ region z) :
    test (a.scale t) = test a := by
  obtain ⟨k, hk⟩ := ha.exists_coeff_ne_zero
  have hscale : (a.scale t).IsNonzero := (trimmed_scale t a).isNonzero (k := k) (by
    rw [coeff_scale]
    exact mul_ne_zero hk (zpow_ne_zero k ht))
  exact h.congr ha hscale (ha.rootsLieIn_scale ht hregion)

end LocatesRoots

/-- The answers of the test follow the roots: a product passes when both factors do, and neither the
Laurent form, nor a shift, nor a numerical factor matters. -/
structure FollowsRoots (test : MixedPoly ℝ ℂ → Except Failure Bool) (region : ℂ → Prop) :
    Prop where
  /-- The test answers, and says whether all roots lie in the region. -/
  answers : LocatesRoots test region
  /-- A product passes exactly when both factors do. -/
  mul : ∀ {a b}, a.IsNonzero → b.IsNonzero → ∃ r p q, a.mul? b = .ok r ∧ test a = .ok p ∧
    test b = .ok q ∧ test r = .ok (p && q)
  /-- The Laurent form gets the answer of the polynomial. -/
  toLaurent : ∀ {a}, a.IsNonzero → test a.toLaurent = test a
  /-- A shift gets the answer of the polynomial. -/
  shift : ∀ {a}, a.IsNonzero → ∀ n, test (a.shift n) = test a
  /-- A multiple by a number gets the answer of the polynomial. -/
  mulNumber : ∀ {a}, a.IsNonzero → ∀ t : MixedScalar ℝ ℂ, t.toComplex ≠ 0 →
    ∃ r, a.mulNumber? t = .ok r ∧ test r = test a

/-- A test that locates the roots follows them. -/
theorem LocatesRoots.followsRoots (h : LocatesRoots test region) : FollowsRoots test region where
  answers := h
  mul {a b} ha hb := by
    obtain ⟨p, hp, hpiff⟩ := h a ha
    obtain ⟨q, hq, hqiff⟩ := h b hb
    obtain ⟨r, hr, hnonzero, hroots⟩ := ha.exists_mul? hb
    obtain ⟨answer, hanswer, hiff⟩ := h r hnonzero
    refine ⟨r, p, q, hr, hp, hq, hanswer.trans (congrArg _ (Bool.eq_iff_iff.mpr ?_))⟩
    rw [hiff, hroots, Bool.and_eq_true, hpiff, hqiff]
  toLaurent {a} ha := by
    obtain ⟨k, hk⟩ := ha.exists_coeff_ne_zero
    have hlaurent : a.toLaurent.IsNonzero :=
      ha.trimmed.toLaurent.isNonzero (by rwa [coeff_toLaurent])
    refine h.congr_of_zeros ha hlaurent fun x hx => ?_
    rw [hlaurent.trimmed.valueAt_of_coeff (coeff_toLaurent a) (Or.inl hx),
      ha.trimmed.valueAt_eq (Or.inl hx)]
  shift {a} ha n := by
    obtain ⟨k, hk⟩ := ha.exists_coeff_ne_zero
    have hshift : (a.shift n).IsNonzero :=
      (trimmed_shift n a).isNonzero (k := k + n) (by rwa [coeff_shift, add_sub_cancel_right])
    refine h.congr_of_zeros ha hshift fun x hx => ?_
    rw [ha.trimmed.valueAt_shift (Or.inl hx) (Or.inl hx), mul_eq_zero,
      or_iff_right (zpow_ne_zero n hx)]
  mulNumber {a} ha t ht := by
    obtain ⟨hconstant, hnone⟩ := rootsLieIn_constant ht a.symbol region
    obtain ⟨r, hr, hnonzero, hroots⟩ := ha.exists_mul? hconstant
    exact ⟨r, hr, h.congr ha hnonzero ((hroots region).trans (and_iff_left hnone))⟩

end Tests

/-- With exact root finders both tests answer for every polynomial other than zero, and say whether
its roots lie in the closed unit disk and in the closed left half plane. A product passes exactly
when both factors do, and the answer is not changed by the Laurent form, a shift or a numerical
factor. Neither is that for the half plane by scaling the variable with a positive number, nor that
for the disk by turning the variable. -/
theorem stability_laws (hreal : ofReal.FindsRoots) (hcomplex : ofComplex.FindsRoots) :
    FollowsRoots (isDiskStable ofReal ofComplex) (fun z => ‖z‖ ≤ 1) ∧
    FollowsRoots (isHalfPlaneStable ofReal ofComplex) (fun z => z.re ≤ 0) ∧
    ∀ {a : MixedPoly ℝ ℂ}, a.IsNonzero → ∀ t : MixedScalar ℝ ℂ,
      ((∃ ρ : ℝ, 0 < ρ ∧ t.toComplex = ρ) →
        isHalfPlaneStable ofReal ofComplex (a.scale t) = isHalfPlaneStable ofReal ofComplex a) ∧
      (‖t.toComplex‖ = 1 →
        isDiskStable ofReal ofComplex (a.scale t) = isDiskStable ofReal ofComplex a) := by
  have hdisk := locatesRoots_isDiskStable hreal hcomplex
  have hplane := locatesRoots_isHalfPlaneStable hreal hcomplex
  refine ⟨hdisk.followsRoots, hplane.followsRoots, fun ha t => ⟨?_, fun ht => ?_⟩⟩
  · rintro ⟨ρ, hρ, ht⟩
    refine hplane.scale ha (ht.trans_ne (Complex.ofReal_ne_zero.mpr hρ.ne')) fun z => ?_
    rw [ht, Complex.re_ofReal_mul]
    exact smul_nonpos_iff_nonpos_of_pos_left hρ
  · refine hdisk.scale ha (norm_ne_zero_iff.mp (ht.trans_ne one_ne_zero)) fun z => ?_
    rw [norm_mul, ht, one_mul]

/-- The complex polynomial `z - i` has its root on the boundary of both regions, and the real
polynomial `2 s - 1` has its root inside the disk and outside the half plane. Their product passes
the test for the disk alone. -/
theorem stability_laws_boundary :
    (exactRoots ℝ).FindsRoots ∧ (exactRoots ℂ).FindsRoots ∧
      (complex (Poly.ofCoef #[-Complex.I, 1] "z") : MixedPoly ℝ ℂ).IsNonzero ∧
      (real (Poly.ofCoef #[-1, 2] "s") : MixedPoly ℝ ℂ).IsNonzero ∧
      ∃ r : MixedPoly ℝ ℂ, (complex (Poly.ofCoef #[-Complex.I, 1] "z")).mul?
          (real (Poly.ofCoef #[-1, 2] "s")) = .ok r ∧
        isDiskStable (exactRoots ℝ) (exactRoots ℂ) r = .ok true ∧
        isHalfPlaneStable (exactRoots ℝ) (exactRoots ℂ) r = .ok false := by
  let a : MixedPoly ℝ ℂ := complex (Poly.ofCoef #[-Complex.I, 1] "z")
  let b : MixedPoly ℝ ℂ := real (Poly.ofCoef #[-1, 2] "s")
  have ha : a.IsNonzero := by
    refine Trimmed.isNonzero (Poly.trimmed_ofCoef _ _) (k := 1) ?_
    rw [coeff_complex, Poly.coeff_ofCoef]
    exact one_ne_zero
  have hb : b.IsNonzero := by
    refine Trimmed.isNonzero (Poly.trimmed_ofCoef _ _) (k := 1) ?_
    rw [coeff_real, Poly.coeff_ofCoef]
    exact Complex.ofReal_ne_zero.mpr two_ne_zero
  have haroot : ∀ x : MixedScalar ℝ ℂ, x.toComplex ≠ 0 →
      (a.valueAt x = 0 ↔ x.toComplex = Complex.I) := by
    intro x hx
    have hpolynomial : a.toComplex.toPolynomial = C 1 * X + C (-Complex.I) :=
      Poly.toPolynomial_linear _ _ _
    have hvalue : a.toComplex.toPolynomial.eval x.toComplex = x.toComplex - Complex.I := by
      rw [hpolynomial]
      simp [sub_eq_add_neg]
    rw [valueAt_eq_zero_iff a hx, hvalue, sub_eq_zero]
  have hbroot : ∀ x : MixedScalar ℝ ℂ, x.toComplex ≠ 0 →
      (b.valueAt x = 0 ↔ x.toComplex = 1 / 2) := by
    intro x hx
    have hpolynomial : b.toComplex.toPolynomial =
        (C 2 * X + C (-1) : ℝ[X]).map Complex.ofRealHom := by
      rw [← Poly.toPolynomial_linear, ← Poly.toPolynomial_map]
      rfl
    have hvalue : b.toComplex.toPolynomial.eval x.toComplex = x.toComplex * 2 - 1 := by
      rw [hpolynomial, eval_map, eval₂_add, eval₂_mul, eval₂_C, eval₂_C, eval₂_X]
      push_cast [Complex.ofRealHom_eq_coe]
      ring
    rw [valueAt_eq_zero_iff b hx, hvalue, sub_eq_zero, eq_div_iff two_ne_zero]
  obtain ⟨hdisk, hplane, -⟩ := stability_laws (exactRoots_findsRoots (K := ℝ))
    (exactRoots_findsRoots (K := ℂ))
  obtain ⟨r, p, q, hr, hp, hq, hproduct⟩ := hdisk.mul ha hb
  obtain ⟨s, p', q', hs, -, hq', hproduct'⟩ := hplane.mul ha hb
  obtain rfl := Except.ok.inj (hr.symm.trans hs)
  have hptrue : p = true := by
    refine hdisk.answers.eq_true ha hp fun x hx hroot => ?_
    rw [(haroot x hx).mp hroot]
    exact Complex.norm_I.le
  have hqtrue : q = true := by
    refine hdisk.answers.eq_true hb hq fun x hx hroot => ?_
    rw [(hbroot x hx).mp hroot]
    norm_num
  have hqfalse : q' = false := by
    have hhalf : (MixedScalar.complex (1 / 2) : MixedScalar ℝ ℂ).toComplex ≠ 0 :=
      one_div_ne_zero two_ne_zero
    refine hplane.answers.eq_false hb hq' hhalf ((hbroot _ hhalf).mpr rfl) ?_
    change ¬(1 / 2 : ℂ).re ≤ 0
    norm_num
  rw [hptrue, hqtrue, Bool.and_self] at hproduct
  rw [hqfalse, Bool.and_false] at hproduct'
  exact ⟨exactRoots_findsRoots, exactRoots_findsRoots, ha, hb, r, hr, hproduct, hproduct'⟩

end MixedPoly

end PolynomialEquations
