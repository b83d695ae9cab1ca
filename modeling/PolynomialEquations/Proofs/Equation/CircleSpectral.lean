import PolynomialEquations.Equation.Spectral
import PolynomialEquations.Proofs.Analysis.Symmetry
import PolynomialEquations.Proofs.Journal
import PolynomialEquations.Proofs.Kernel.Roots
import PolynomialEquations.Proofs.Poly.CircleRoots

/-!
# Spectral factors across the unit circle

With all complex roots at hand, the stable factor of a Laurent polynomial with a symmetric window is
the scaled product of its linear factors inside the unit circle, and the warning is written when
these are not half of all. A symmetric polynomial has such a window, for it the warning tells of a
root on the circle, and without one the factor is a solution.
-/

namespace PolynomialEquations

open Polynomial

variable {finder : RootFinder ℝ ℂ} {a x : Poly ℝ}

/-- The squared 2-norm of the stored coefficients is that of the polynomial. -/
theorem squaredNorm_coef (p : Poly ℝ) :
    squaredNorm p.coef = coefficientNorm p.toPolynomial ^ 2 := by
  rw [Poly.toPolynomial, coefficientNorm_vectorPolynomial, euclideanNorm_sq, squaredNorm_eq_sum]

/-- The coefficient at exponent zero stands in the middle of a symmetric window. -/
theorem Poly.IsLaurent.middleCoeff_eq (ha : a.IsLaurent) (hwindow : a.first = -a.last) :
    middleCoeff a.toPolynomial = a.coeff 0 := by
  have hdegree := ha.natDegree_eq
  have hindex : a.first + ((a.toPolynomial.natDegree / 2 : ℕ) : ℤ) = 0 := by omega
  rw [middleCoeff, coeff_toPolynomial, ← coeff_first_add, hindex]

/-- The journal and the outcome of the choice of the roots inside. -/
theorem circleFactor_eq (a : Poly ℝ) (roots : List ℂ) :
    circleFactor a roots =
      let stable := roots.filter fun r => decide (‖r‖ < 1)
      let p : MixedPoly ℝ ℂ := polyOfRoots stable a.symbol
      ⟨if 2 * stable.length = roots.length then []
        else [.boundaryRoots .unitCircle stable.length roots.length],
        .ok (p.scaleBy √(|a.coeff 0| /
          p.ask (fun p => squaredNorm p.coef) fun p => squaredNorm p.coef))⟩ := by
  unfold circleFactor
  dsimp only
  by_cases hhalf : 2 * (roots.filter fun r => decide (‖r‖ < 1)).length = roots.length
  · rw [if_pos hhalf]
    exact if_neg (not_not_intro hhalf)
  · rw [if_neg hhalf]
    exact if_pos hhalf

/-- With exact roots the factor of a Laurent polynomial with a symmetric window is the scaled
product of the linear factors inside, and the warning is written unless these are half of all. -/
theorem exists_realStableFactor_circle (hf : finder.FindsRoots) (ha : a.IsLaurent)
    (hwindow : a.first = -a.last) :
    ∃ x, realStableFactor finder a =
        ⟨if 2 * (diskRoots a.toPolynomial).card = (a.toPolynomial.aroots ℂ).card then []
          else [.boundaryRoots .unitCircle (diskRoots a.toPolynomial).card
            (a.toPolynomial.aroots ℂ).card], .ok x⟩ ∧
      x.IsOrdinary ∧ x.symbol = a.symbol ∧ IsDiskFactor a.toPolynomial x.toPolynomial := by
  have hconj : ∀ r : ℂ, ‖starRingEnd ℂ r‖ < 1 ↔ ‖r‖ < 1 := fun r => by rw [RCLike.norm_conj]
  obtain ⟨roots, p, hroots, hall, hinside, hp, hordinary, hsymbol, hproduct⟩ :=
    hf.exists_product (p := fun r => ‖r‖ < 1) ha.trimmed hconj a.symbol
  refine ⟨p.scalarMul √(|a.coeff 0| / squaredNorm p.coef), ?_,
    Poly.isOrdinary_scalarMul hordinary.variant_eq _, (Poly.symbol_mul _ _).trans hsymbol,
    p.toPolynomial, hproduct, ?_⟩
  · rw [realStableFactor, stableFactor, ha.variant_eq]
    dsimp only
    rw [if_neg (not_not_intro hwindow), hroots, Traced.bind_of_ok _ (Traced.outcome_ofExcept _),
      circleFactor_eq, Traced.bind_of_ok _ rfl]
    dsimp only
    rw [hp, hall, hinside, Traced.journal_ofExcept, Traced.journal_pure, List.nil_append,
      List.append_nil]
    rfl
  · rw [Poly.toPolynomial_scalarMul hordinary.variant_eq, ha.middleCoeff_eq hwindow,
      squaredNorm_coef]

/-- The polynomial `x` is a stable solution of `x̃ x = ± a`, where the sign is that of the
coefficient of `a` at exponent zero. -/
structure IsCircleFactor (a x : Poly ℝ) : Prop where
  /-- The solution is an ordinary polynomial without padding. -/
  ordinary : x.IsOrdinary
  /-- The degree is the last exponent of `a`. -/
  degree_eq : x.degree = a.last
  /-- The leading coefficient is positive. -/
  leadingCoeff_pos : 0 < x.toPolynomial.leadingCoeff
  /-- All complex roots lie inside the unit circle, and none is zero. -/
  roots_inside : ∀ r : ℂ, aeval r x.toPolynomial = 0 → r ≠ 0 ∧ ‖r‖ < 1
  /-- The equation is solved when the coefficient at exponent zero is positive. -/
  mul_eq : 0 < a.coeff 0 → x.circleConj * x = a
  /-- The equation is solved up to the sign when the coefficient at exponent zero is negative. -/
  mul_eq_neg : a.coeff 0 < 0 → x.circleConj * x = -a

/-- Without roots on the circle the product of the linear factors inside is a solution. -/
theorem IsDiskFactor.isCircleFactor (h : IsDiskFactor a.toPolynomial x.toPolynomial)
    (hx : x.IsOrdinary) (hsymbol : x.symbol = a.symbol) (ha : a.IsLaurent)
    (hzero : a.isZero = false) (hwindow : a.first = -a.last)
    (hmirror : a.toPolynomial.mirror = a.toPolynomial)
    (hroots : ∀ r ∈ a.toPolynomial.aroots ℂ, ‖r‖ ≠ 1) : IsCircleFactor a x := by
  have hsolution := h.isDiskSolution hmirror (ha.coeff_zero_ne_zero hzero) hroots
  have hpos := hsolution.mirror_mul
  have hneg := hsolution.mirror_mul_neg
  rw [ha.middleCoeff_eq hwindow] at hpos hneg
  have hdegree : (x.toPolynomial.natDegree : ℤ) = a.last := by
    have hhalf := hsolution.two_mul_natDegree
    have hwidth := ha.natDegree_eq
    omega
  have hcoeff : ∀ k, (x.circleConj * x).coeff k =
      shiftedCoeff a.first (x.toPolynomial.mirror * x.toPolynomial) k := by
    intro k
    rw [hx.coeff_circleConj_mul hsolution.coeff_zero_ne_zero, hdegree, hwindow]
  have hproduct := (Poly.isLaurent_circleConj x).mul x
  have hmulsymbol : (x.circleConj * x).symbol = a.symbol := by
    rw [Poly.symbol_mul, Poly.symbol_circleConj, hsymbol]
  constructor
  case ordinary => exact hx
  case degree_eq =>
    have hX := leadingCoeff_ne_zero.mp hsolution.leadingCoeff_pos.ne'
    rw [hx.degree_eq (Poly.isZero_eq_false hX), hdegree]
  case leadingCoeff_pos => exact hsolution.leadingCoeff_pos
  case roots_inside => exact hsolution.roots_inside
  case mul_eq =>
    intro hsign
    apply hproduct.trimmed.eq_of_coeff_eq ha.trimmed
    · rw [hproduct.variant_eq, ha.variant_eq]
    · exact hmulsymbol
    · intro k
      rw [hcoeff, hpos hsign, Poly.coeff_eq_shiftedCoeff]
  case mul_eq_neg =>
    intro hsign
    apply hproduct.trimmed.eq_of_coeff_eq (Poly.trimmed_assemble _ _ _ _)
    · rw [hproduct.variant_eq]
      exact ((Poly.variant_neg a).trans ha.variant_eq).symm
    · rw [hmulsymbol]
      exact (Poly.symbol_neg a).symm
    · intro k
      rw [hcoeff, hneg hsign, shiftedCoeff_neg, ← Poly.coeff_eq_shiftedCoeff]
      exact (Poly.coeff_neg a k).symm

/-- A root on the unit circle is a root of the polynomial of the stored coefficients. -/
theorem complexValue_ne_zero_iff (hzero : a.isZero = false) :
    (∀ r : ℂ, ‖r‖ = 1 → a.complexValue r ≠ 0) ↔ ∀ r ∈ a.toPolynomial.aroots ℂ, ‖r‖ ≠ 1 := by
  have hA := Poly.toPolynomial_ne_zero hzero
  have hvalue : ∀ r : ℂ, ‖r‖ = 1 → (a.complexValue r = 0 ↔ aeval r a.toPolynomial = 0) := by
    intro r hr
    refine a.complexValue_eq_zero_iff (norm_ne_zero_iff.mp ?_)
    rw [hr]
    exact one_ne_zero
  constructor
  · intro h r hr hnorm
    exact h r hnorm ((hvalue r hnorm).mpr (mem_aroots.mp hr).2)
  · intro h r hnorm hr
    exact h r (mem_aroots.mpr ⟨hA, (hvalue r hnorm).mp hr⟩) hnorm

/-- The window of the product of an ordinary polynomial with a constant term and its conjugate is
symmetric. -/
theorem Poly.IsOrdinary.circleConj_mul_first {b : Poly ℝ} (hb : b.IsOrdinary)
    (hzero : b.toPolynomial.coeff 0 ≠ 0) :
    (b.circleConj * b).first = -(b.circleConj * b).last := by
  obtain ⟨hfirst, hpolynomial⟩ := hb.circleConj_mul hzero
  have hwidth := ((Poly.isLaurent_circleConj b).mul b).natDegree_eq
  rw [hpolynomial, mul_comm, natDegree_mul_mirror, hfirst] at hwidth
  omega

/-- The product of an ordinary polynomial with a constant term and its conjugate is symmetric. -/
theorem isConjSymmetric_circleConj_mul {b : Poly ℝ} (hb : b.IsOrdinary)
    (hzero : b.toPolynomial.coeff 0 ≠ 0) :
    (b.circleConj * b).isZero = false ∧ isConjSymmetric (b.circleConj * b) (0 : ℝ) = true := by
  have hB : b.toPolynomial ≠ 0 := fun h => hzero (by rw [h, coeff_zero])
  have hA := (hb.circleConj_mul hzero).2
  have hne := Poly.isZero_eq_false
    (hA.trans_ne (mul_ne_zero (mirror_eq_zero.not.mpr hB) hB))
  refine ⟨hne, (isConjSymmetric_iff_mirror ((Poly.isLaurent_circleConj b).mul b) hne).mpr ?_⟩
  refine ⟨hb.circleConj_mul_first hzero, ?_⟩
  rw [hA, mirror_mul_of_domain, mirror_mirror, mul_comm]

/-- A polynomial with a positive leading coefficient, a constant term and all roots inside the unit
circle is found again from its product with its conjugate. -/
theorem realStableFactor_circleConj_mul (hf : finder.FindsRoots) {b : Poly ℝ} (hb : b.IsOrdinary)
    (hconstant : b.coeff 0 ≠ 0) (hlead : 0 < b.toPolynomial.leadingCoeff)
    (hroots : ∀ r ∈ b.toPolynomial.aroots ℂ, ‖r‖ < 1) :
    (realStableFactor finder (b.circleConj * b)).outcome = .ok b := by
  have hzero : b.toPolynomial.coeff 0 ≠ 0 := by
    rwa [Poly.coeff_toPolynomial, ← Poly.coeff_natCast hb.variant_eq]
  obtain ⟨x, hrun, hx, hsymbol, hfactor⟩ := exists_realStableFactor_circle hf
    ((Poly.isLaurent_circleConj b).mul b) (hb.circleConj_mul_first hzero)
  rw [(hb.circleConj_mul hzero).2] at hfactor
  have hxb : x = b := by
    apply hx.eq_of_toPolynomial_eq hb
    · rw [hsymbol, Poly.symbol_mul, Poly.symbol_circleConj]
    · exact hfactor.unique (isDiskFactor_self hlead hzero hroots)
  rw [hrun, hxb]

/-- With exact roots a symmetric Laurent polynomial other than zero has a factor, the warning is
written exactly when it has a root on the unit circle, and without such a root the factor is a
stable solution. In particular a polynomial that has a constant term, a positive leading coefficient
and all roots inside the circle is found again from its product with its conjugate. -/
theorem realStableFactor_circle (hf : finder.FindsRoots) :
    (∀ a : Poly ℝ, a.IsLaurent → a.isZero = false → isConjSymmetric a 0 = true →
      ∃ x, (realStableFactor finder a).outcome = .ok x ∧
        ((∃ kept total, Event.boundaryRoots .unitCircle kept total ∈
            (realStableFactor finder a).journal) ↔ ∃ r : ℂ, ‖r‖ = 1 ∧ a.complexValue r = 0) ∧
        ((∀ r : ℂ, ‖r‖ = 1 → a.complexValue r ≠ 0) → IsCircleFactor a x)) ∧
    ∀ b : Poly ℝ, b.IsOrdinary → b.coeff 0 ≠ 0 → 0 < b.toPolynomial.leadingCoeff →
      (∀ r : ℂ, aeval r b.toPolynomial = 0 → ‖r‖ < 1) →
        (realStableFactor finder (b.circleConj * b)).outcome = .ok b := by
  constructor
  · intro a ha hzero hsymmetric
    obtain ⟨hwindow, hmirror⟩ := (isConjSymmetric_iff_mirror ha hzero).mp hsymmetric
    have hhalf := two_mul_card_diskRoots_iff hmirror (ha.coeff_zero_ne_zero hzero)
    have hcircle := complexValue_ne_zero_iff hzero
    obtain ⟨x, hrun, hx, hsymbol, hfactor⟩ := exists_realStableFactor_circle hf ha hwindow
    rw [hrun]
    refine ⟨x, rfl, ?_, fun hroots => ?_⟩
    · rw [boundaryRoots_mem_iff, hhalf, ← hcircle]
      push Not
      rfl
    · exact hfactor.isCircleFactor hx hsymbol ha hzero hwindow hmirror (hcircle.mp hroots)
  · intro b hb hconstant hlead hroots
    exact realStableFactor_circleConj_mul hf hb hconstant hlead fun r hr =>
      hroots r (mem_aroots.mp hr).2

/-- For the product of `z - 1 / 2` and its conjugate there is no warning, and `z - 1 / 2` is
found. -/
theorem realStableFactor_circle_linear :
    (exactRoots ℝ).FindsRoots ∧
      isConjSymmetric ((Poly.ofCoef #[(-1 / 2 : ℝ), 1] "z").circleConj *
        Poly.ofCoef #[-1 / 2, 1] "z") 0 = true ∧
      (realStableFactor (exactRoots ℝ) ((Poly.ofCoef #[(-1 / 2 : ℝ), 1] "z").circleConj *
        Poly.ofCoef #[-1 / 2, 1] "z")).outcome = .ok (Poly.ofCoef #[-1 / 2, 1] "z") ∧
      IsCircleFactor ((Poly.ofCoef #[(-1 / 2 : ℝ), 1] "z").circleConj *
        Poly.ofCoef #[-1 / 2, 1] "z") (Poly.ofCoef #[-1 / 2, 1] "z") := by
  let b : Poly ℝ := Poly.ofCoef #[-1 / 2, 1] "z"
  have hb : b.IsOrdinary := Poly.isOrdinary_ofCoef _ _
  have hB : b.toPolynomial = C 1 * X + C (-1 / 2) := Poly.toPolynomial_linear _ _ _
  have hlead : 0 < b.toPolynomial.leadingCoeff := by
    rw [hB, leadingCoeff_linear one_ne_zero]
    exact one_pos
  have hconstant : b.toPolynomial.coeff 0 ≠ 0 := by
    rw [hB]
    norm_num
  have hroot : ∀ r : ℂ, aeval r b.toPolynomial = 0 → r = 1 / 2 := by
    intro r hr
    rw [hB] at hr
    linear_combination (by simpa using hr : r + -1 / 2 = 0)
  have hA := (hb.circleConj_mul hconstant).2
  have hmul : b.toPolynomial.mirror * b.toPolynomial ≠ 0 :=
    mul_ne_zero (mirror_eq_zero.not.mpr (leadingCoeff_ne_zero.mp hlead.ne'))
      (leadingCoeff_ne_zero.mp hlead.ne')
  obtain ⟨hzero, hsymmetric⟩ := isConjSymmetric_circleConj_mul hb hconstant
  have hcircle : ∀ r : ℂ, ‖r‖ = 1 → (b.circleConj * b).complexValue r ≠ 0 := by
    rw [complexValue_ne_zero_iff hzero, hA, aroots_mul hmul, aroots_mirror hconstant]
    intro r hr
    rcases Multiset.mem_add.mp hr with hmem | hmem
    · obtain ⟨u, hu, rfl⟩ := Multiset.mem_map.mp hmem
      rw [hroot u (mem_aroots.mp hu).2]
      norm_num
    · rw [hroot r (mem_aroots.mp hmem).2]
      norm_num
  have hfind := exactRoots_findsRoots (K := ℝ)
  obtain ⟨hsymmetrical, hproduct⟩ := realStableFactor_circle hfind
  have houtcome := hproduct b hb (by rwa [Poly.coeff_toPolynomial,
    ← Poly.coeff_natCast hb.variant_eq] at hconstant) hlead fun r hr => by
      rw [hroot r hr]
      norm_num
  obtain ⟨x, hx, -, hfactor⟩ := hsymmetrical _ ((Poly.isLaurent_circleConj b).mul b) hzero
    hsymmetric
  rw [houtcome] at hx
  obtain rfl := Except.ok.inj hx
  exact ⟨hfind, hsymmetric, houtcome, hfactor hcircle⟩

end PolynomialEquations
