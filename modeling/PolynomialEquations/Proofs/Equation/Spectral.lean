import PolynomialEquations.Equation.Spectral
import PolynomialEquations.Proofs.Analysis.Symmetry
import PolynomialEquations.Proofs.Journal
import PolynomialEquations.Proofs.Kernel.Roots
import PolynomialEquations.Proofs.Poly.AxisRoots

/-!
# Spectral factors across the imaginary axis

With all complex roots at hand, the stable factor of an ordinary polynomial is the scaled product of
its linear factors on the left of the imaginary axis, and the warning is written when these are not
half of all. For a polynomial that is its own conjugate the warning tells of a root on the axis, and
without one the factor is a solution.
-/

namespace PolynomialEquations

open Polynomial

variable {finder : RootFinder ℝ ℂ} {a x : Poly ℝ}

/-- The journal and the outcome of the choice of the roots on the left. -/
theorem axisFactor_eq (a : Poly ℝ) (roots : List ℂ) :
    axisFactor a roots =
      let stable := roots.filter fun r => decide (r.re < 0)
      ⟨if 2 * (stable.length : ℤ) = a.degree then []
        else [.boundaryRoots .imaginaryAxis stable.length roots.length],
        .ok ((polyOfRoots stable a.symbol).scaleBy √|a.coeff a.degree|)⟩ := by
  unfold axisFactor
  dsimp only
  by_cases hhalf : 2 * ((roots.filter fun r => decide (r.re < 0)).length : ℤ) = a.degree
  · rw [if_pos hhalf]
    exact if_neg (not_not_intro hhalf)
  · rw [if_neg hhalf]
    exact if_pos hhalf

/-- With exact roots the factor of an ordinary value is the scaled product of the linear factors on
the left, and the warning is written unless these are half of all. -/
theorem exists_realStableFactor (hf : finder.FindsRoots) (ha : a.IsOrdinary) :
    ∃ x, realStableFactor finder a =
        ⟨if 2 * ((leftRoots a.toPolynomial).card : ℤ) = a.degree then []
          else [.boundaryRoots .imaginaryAxis (leftRoots a.toPolynomial).card
            (a.toPolynomial.aroots ℂ).card], .ok x⟩ ∧
      x.IsOrdinary ∧ x.symbol = a.symbol ∧ IsLeftFactor a.toPolynomial x.toPolynomial := by
  have hconj : ∀ r : ℂ, (starRingEnd ℂ r).re < 0 ↔ r.re < 0 := fun r => by rw [Complex.conj_re]
  obtain ⟨roots, p, hroots, hall, hleft, hp, hordinary, hsymbol, hproduct⟩ :=
    hf.exists_product (p := fun r => r.re < 0) ha.trimmed hconj a.symbol
  refine ⟨p.scalarMul √|a.coeff a.degree|, ?_, Poly.isOrdinary_scalarMul hordinary.variant_eq _,
    (Poly.symbol_mul _ _).trans hsymbol, ?_⟩
  · rw [realStableFactor, stableFactor, ha.variant_eq]
    dsimp only
    rw [hroots, Traced.bind_of_ok _ (Traced.outcome_ofExcept _), axisFactor_eq,
      Traced.bind_of_ok _ rfl]
    dsimp only
    rw [hp, hall, hleft, Traced.journal_ofExcept, Traced.journal_pure, List.nil_append,
      List.append_nil]
    rfl
  · rw [IsLeftFactor, Poly.toPolynomial_scalarMul hordinary.variant_eq, Polynomial.map_mul, map_C,
      hproduct, ha.coeff_degree, mul_comm]
    rfl

/-- The polynomial `x` is a stable solution of `x̃ x = ± a`, where the sign is that of the constant
term of `a`. -/
structure IsAxisFactor (a x : Poly ℝ) : Prop where
  /-- The solution has no padding. -/
  ordinary : x.IsOrdinary
  /-- The degree is half that of `a`. -/
  degree_eq : 2 * x.degree = a.degree
  /-- The leading coefficient is positive. -/
  leadingCoeff_pos : 0 < x.toPolynomial.leadingCoeff
  /-- All complex roots lie on the left of the imaginary axis. -/
  roots_left : ∀ r : ℂ, aeval r x.toPolynomial = 0 → r.re < 0
  /-- The equation is solved when the constant term is positive. -/
  mul_eq : 0 < a.coeff 0 → x.axisConj * x = a
  /-- The equation is solved up to the sign when the constant term is negative. -/
  mul_eq_neg : a.coeff 0 < 0 → x.axisConj * x = -a

/-- Without roots on the axis the product of the linear factors on the left is a solution. -/
theorem IsLeftFactor.isAxisFactor (h : IsLeftFactor a.toPolynomial x.toPolynomial)
    (hx : x.IsOrdinary) (hsymbol : x.symbol = a.symbol) (ha : a.IsOrdinary)
    (hzero : a.isZero = false) (hconj : axisConjugate a.toPolynomial = a.toPolynomial)
    (hroots : ∀ r ∈ a.toPolynomial.aroots ℂ, r.re ≠ 0) : IsAxisFactor a x := by
  have hA := Poly.toPolynomial_ne_zero hzero
  have hlead := h.leadingCoeff_pos hA
  have hX : x.toPolynomial ≠ 0 := leadingCoeff_ne_zero.mp hlead.ne'
  have hproduct := Poly.isOrdinary_axisConj_mul hx.variant_eq
  have hmulsymbol : (x.axisConj * x).symbol = a.symbol := by
    rw [Poly.symbol_mul, Poly.symbol_axisConj, hsymbol]
  obtain ⟨hpos, hneg⟩ := axisConjugate_mul_eq hconj hroots h
  have hconstant : a.coeff 0 = a.toPolynomial.coeff 0 := by
    rw [Poly.coeff_toPolynomial]
    exact Poly.coeff_natCast ha.variant_eq 0
  constructor
  case ordinary => exact hx
  case degree_eq =>
    have hhalf := (two_mul_card_leftRoots_iff hconj).mpr hroots
    rw [← h.aroots_eq hA, IsAlgClosed.card_aroots_eq_natDegree] at hhalf
    rw [ha.degree_eq hzero, hx.degree_eq (Poly.isZero_eq_false hX)]
    exact_mod_cast hhalf
  case leadingCoeff_pos => exact hlead
  case roots_left =>
    intro r hr
    have hmem : r ∈ leftRoots a.toPolynomial := h.aroots_eq hA ▸ mem_aroots.mpr ⟨hX, hr⟩
    exact (Multiset.mem_filter.mp hmem).2
  case mul_eq =>
    intro hsign
    apply hproduct.eq_of_toPolynomial_eq ha hmulsymbol
    rw [Poly.toPolynomial_axisConj_mul hx.variant_eq, hpos (hconstant ▸ hsign)]
  case mul_eq_neg =>
    intro hsign
    apply hproduct.eq_of_toPolynomial_eq (Poly.isOrdinary_neg ha.variant_eq)
    · rw [hmulsymbol, Poly.symbol_neg]
    · rw [Poly.toPolynomial_axisConj_mul hx.variant_eq, hneg (hconstant ▸ hsign),
        Poly.toPolynomial_neg ha.variant_eq]

/-- The warning is written exactly when a polynomial that is its own conjugate has a root on the
imaginary axis. -/
theorem boundaryRoots_mem_journal_iff (hf : finder.FindsRoots) (ha : a.IsOrdinary)
    (hzero : a.isZero = false) (hconj : axisConjugate a.toPolynomial = a.toPolynomial) :
    (∃ kept total, Event.boundaryRoots .imaginaryAxis kept total ∈
        (realStableFactor finder a).journal) ↔
      ∃ r : ℂ, r.re = 0 ∧ aeval r a.toPolynomial = 0 := by
  have hA := Poly.toPolynomial_ne_zero hzero
  obtain ⟨x, hrun, -⟩ := exists_realStableFactor hf ha
  have hhalf : 2 * ((leftRoots a.toPolynomial).card : ℤ) = a.degree ↔
      ∀ r ∈ a.toPolynomial.aroots ℂ, r.re ≠ 0 := by
    rw [ha.degree_eq hzero, ← two_mul_card_leftRoots_iff hconj]
    norm_cast
  rw [hrun, boundaryRoots_mem_iff, hhalf]
  push Not
  constructor
  · rintro ⟨r, hr, hre⟩
    exact ⟨r, hre, (mem_aroots.mp hr).2⟩
  · rintro ⟨r, hre, hr⟩
    exact ⟨r, mem_aroots.mpr ⟨hA, hr⟩, hre⟩

/-- A polynomial with a positive leading coefficient and all roots on the left is found again from
its product with its conjugate, without a warning. -/
theorem realStableFactor_axisConj_mul (hf : finder.FindsRoots) {b : Poly ℝ} (hb : b.IsOrdinary)
    (hlead : 0 < b.toPolynomial.leadingCoeff)
    (hroots : ∀ r ∈ b.toPolynomial.aroots ℂ, r.re < 0) :
    realStableFactor finder (b.axisConj * b) = pure b := by
  have hB : b.toPolynomial ≠ 0 := leadingCoeff_ne_zero.mp hlead.ne'
  have hB' := axisConjugate_eq_zero_iff.not.mpr hB
  have hmul := Poly.toPolynomial_axisConj_mul hb.variant_eq
  have hproduct := Poly.isOrdinary_axisConj_mul hb.variant_eq
  have hself := isLeftFactor_self hlead hroots
  obtain ⟨x, hrun, hx, hsymbol, hleft⟩ := exists_realStableFactor hf hproduct
  rw [hmul] at hrun hleft
  have hhalf : 2 * ((leftRoots (axisConjugate b.toPolynomial * b.toPolynomial)).card : ℤ) =
      (b.axisConj * b).degree := by
    have hzero := Poly.isZero_eq_false (hmul.trans_ne (mul_ne_zero hB' hB))
    rw [hproduct.degree_eq hzero, hmul, ← hself.aroots_eq (mul_ne_zero hB' hB),
      IsAlgClosed.card_aroots_eq_natDegree, natDegree_mul hB' hB, natDegree_axisConjugate,
      ← two_mul, Nat.cast_mul, Nat.cast_two]
  have hxb : x = b := by
    apply hx.eq_of_toPolynomial_eq hb
    · rw [hsymbol, Poly.symbol_mul, Poly.symbol_axisConj]
    · exact hleft.unique hself
  rw [hrun, if_pos hhalf, hxb]
  rfl

/-- With exact roots the warning is written exactly when a symmetric polynomial has a root on the
imaginary axis, and without such a root the factor found is a stable solution. In particular a
polynomial that has a positive leading coefficient and all roots on the left is found again from its
product with its conjugate. -/
theorem realStableFactor_axis (hf : finder.FindsRoots) :
    (∀ a : Poly ℝ, a.IsOrdinary → a.isZero = false → isConjSymmetric a 0 = true →
      ((∃ kept total, Event.boundaryRoots .imaginaryAxis kept total ∈
          (realStableFactor finder a).journal) ↔
        ∃ r : ℂ, r.re = 0 ∧ aeval r a.toPolynomial = 0) ∧
      ((∀ r : ℂ, r.re = 0 → aeval r a.toPolynomial ≠ 0) →
        ∃ x, (realStableFactor finder a).outcome = .ok x ∧ IsAxisFactor a x)) ∧
    ∀ b : Poly ℝ, b.IsOrdinary → 0 < b.toPolynomial.leadingCoeff →
      (∀ r : ℂ, aeval r b.toPolynomial = 0 → r.re < 0) →
        (realStableFactor finder (b.axisConj * b)).outcome = .ok b := by
  constructor
  · intro a ha hzero hsymmetric
    have hconj := (isConjSymmetric_iff ha).mp hsymmetric
    refine ⟨boundaryRoots_mem_journal_iff hf ha hzero hconj, fun hroots => ?_⟩
    obtain ⟨x, hrun, hx, hsymbol, hleft⟩ := exists_realStableFactor hf ha
    refine ⟨x, congrArg Traced.outcome hrun, hleft.isAxisFactor hx hsymbol ha hzero hconj ?_⟩
    intro r hr hre
    exact hroots r hre (mem_aroots.mp hr).2
  · intro b hb hlead hroots
    rw [realStableFactor_axisConj_mul hf hb hlead fun r hr => hroots r (mem_aroots.mp hr).2]
    rfl

/-- The product of `1 + s` and its conjugate is `1 - s ^ 2`. -/
theorem axisConj_mul_linear :
    ((Poly.ofCoef #[(1 : ℝ), 1] "s").axisConj * Poly.ofCoef #[1, 1] "s").toPolynomial =
      1 - X ^ 2 := by
  rw [Poly.toPolynomial_axisConj_mul (Poly.variant_ofCoef _ _), Poly.toPolynomial_linear,
    axisConjugate_real, C_1, one_mul, add_comp, X_comp, one_comp]
  ring

/-- For `1 - s ^ 2` there is no warning, and `1 + s` is found. -/
theorem realStableFactor_axis_linear :
    (exactRoots ℝ).FindsRoots ∧
      isConjSymmetric ((Poly.ofCoef #[(1 : ℝ), 1] "s").axisConj * Poly.ofCoef #[1, 1] "s") 0 =
        true ∧
      (realStableFactor (exactRoots ℝ)
        ((Poly.ofCoef #[(1 : ℝ), 1] "s").axisConj * Poly.ofCoef #[1, 1] "s")).outcome =
          .ok (Poly.ofCoef #[1, 1] "s") ∧
      IsAxisFactor ((Poly.ofCoef #[(1 : ℝ), 1] "s").axisConj * Poly.ofCoef #[1, 1] "s")
        (Poly.ofCoef #[1, 1] "s") := by
  have hb := Poly.isOrdinary_ofCoef #[(1 : ℝ), 1] "s"
  have ha := Poly.isOrdinary_axisConj_mul hb.variant_eq
  have hB := Poly.toPolynomial_linear (1 : ℝ) 1 "s"
  have hA := axisConj_mul_linear
  have hfind := exactRoots_findsRoots (K := ℝ)
  have hzero : ((Poly.ofCoef #[(1 : ℝ), 1] "s").axisConj *
      Poly.ofCoef #[1, 1] "s").isZero = false := by
    refine Poly.isZero_eq_false fun h => ?_
    have hvalue := congrArg (eval 0) (hA.symm.trans h)
    simp at hvalue
  have hsymmetric : isConjSymmetric
      ((Poly.ofCoef #[(1 : ℝ), 1] "s").axisConj * Poly.ofCoef #[1, 1] "s") 0 = true := by
    rw [isConjSymmetric_iff ha, hA, axisConjugate_real]
    simp
  obtain ⟨hsymmetrical, hproduct⟩ := realStableFactor_axis hfind
  have houtcome := hproduct _ hb (by rw [hB, leadingCoeff_linear one_ne_zero]; exact one_pos)
    (fun r hr => by
      rw [hB] at hr
      have hr' : r = -1 := by simpa [eq_neg_iff_add_eq_zero] using hr
      norm_num [hr'])
  obtain ⟨x, hx, hfactor⟩ := (hsymmetrical _ ha hzero hsymmetric).2 (fun r hre hr => by
    rw [hA] at hr
    have hvalue : 1 - r * r = 0 := by simpa [sq] using hr
    have h := congrArg Complex.re (sub_eq_zero.mp hvalue)
    rw [Complex.mul_re, hre, Complex.one_re] at h
    nlinarith [mul_self_nonneg r.im])
  rw [houtcome] at hx
  obtain rfl := Except.ok.inj hx
  exact ⟨hfind, hsymmetric, houtcome, hfactor⟩

end PolynomialEquations
