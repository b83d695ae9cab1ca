import PolynomialEquations.Proofs.Equation.Bezout
import PolynomialEquations.Proofs.Equation.LeastPair
import Mathlib.Analysis.Polynomial.Norm

/-!
# The Diophantine equation is solved and checked

What the check of `a x + b y = c` lets through is as close to a solution as the tolerance asks,
whatever the kernels returned, and nothing fails. With exact kernels a solution is found exactly
when the greatest common divisor of `a` and `b` divides `c`; and when the two are coprime, the
unknown that the policy names has the least degree of all solutions.
-/

namespace PolynomialEquations

open Polynomial

variable {K : Type} [RCLike K]

section Check

/-- The largest modulus of a vector is that of the coefficients of its polynomial. -/
theorem maximumNorm_eq_supNorm (v : Array K) : maximumNorm v = (vectorPolynomial v).supNorm := by
  apply le_antisymm
  · rw [maximumNorm_le_iff]
    refine ⟨supNorm_nonneg _, fun i => ?_⟩
    rw [← coeff_vectorPolynomial]
    exact le_supNorm _ i
  · obtain ⟨i, hi⟩ := exists_eq_supNorm (vectorPolynomial v)
    rw [hi, coeff_vectorPolynomial]
    exact norm_getD_le_maximumNorm v i

/-- The check bounds the largest coefficient of what is left of the equation. -/
theorem satisfies_iff {p c : Poly K} (hp : p.IsOrdinary) (hc : c.IsOrdinary) (tol : ℝ) :
    satisfies p c tol = true ↔
      (p.toPolynomial - c.toPolynomial).supNorm ≤ tol * max 1 c.toPolynomial.supNorm := by
  have hscale : (if (1 : ℝ) < maximumNorm c.coef then maximumNorm c.coef else 1) =
      max 1 c.toPolynomial.supNorm := by
    rw [maximumNorm_eq_supNorm, max_def_lt]
    rfl
  rw [satisfies, decide_eq_true_iff, hscale, maximumNorm_eq_supNorm,
    ← Poly.toPolynomial_sub hp.variant_eq hc.variant_eq]
  rfl

/-- A pair found is given out exactly when it passes the check. -/
theorem diophantinePair_outcome {kernels : LinearKernels K} {a b c : Poly K}
    {policy : DegreePolicy} {pair : Poly K × Poly K}
    (hpair : (candidatePair kernels a b c policy : Traced ℝ _).outcome = .ok pair) (tol : ℝ) :
    (diophantinePair kernels a b c policy tol).outcome =
      .ok (if satisfies (a * pair.1 + b * pair.2) c tol then some pair else none) := by
  unfold diophantinePair
  rw [Traced.outcome_bind_of_ok hpair, verifiedPair]
  split
  · rfl
  · exact Traced.outcome_note_bind _ _

/-- Two equations give corresponding answers when their candidate pairs correspond and pass the
check together. -/
theorem exists_corresponding_outcomes {kernels : LinearKernels K} {a b c a' b' c' : Poly K}
    {policy policy' : DegreePolicy} {pair pair' : Poly K × Poly K} {tol : ℝ}
    {f : Poly K × Poly K → Poly K × Poly K}
    (hpair : (candidatePair kernels a b c policy : Traced ℝ _).outcome = .ok pair)
    (hpair' : (candidatePair kernels a' b' c' policy' : Traced ℝ _).outcome = .ok pair')
    (hf : f pair = pair')
    (hcheck : satisfies (a' * pair'.1 + b' * pair'.2) c' tol =
      satisfies (a * pair.1 + b * pair.2) c tol) :
    ∃ found, (diophantinePair kernels a b c policy tol).outcome = .ok found ∧
      (diophantinePair kernels a' b' c' policy' tol).outcome = .ok (found.map f) := by
  refine ⟨_, diophantinePair_outcome hpair tol, ?_⟩
  rw [diophantinePair_outcome hpair' tol, hcheck, apply_ite (Option.map f), Option.map_some, hf]
  rfl

end Check

section Safety

/-- What the equation leaves of a pair of unknowns, as a polynomial. -/
theorem toPolynomial_combination {a b x y : Poly K} (ha : a.IsOrdinary) (hb : b.IsOrdinary)
    (hx : x.IsOrdinary) (hy : y.IsOrdinary) :
    (a * x + b * y).IsOrdinary ∧ (a * x + b * y).toPolynomial =
      a.toPolynomial * x.toPolynomial + b.toPolynomial * y.toPolynomial := by
  have hax := Poly.isOrdinary_mul ha.variant_eq hx.variant_eq
  have hby := Poly.isOrdinary_mul hb.variant_eq hy.variant_eq
  refine ⟨Poly.isOrdinary_add hax.variant_eq hby.variant_eq, ?_⟩
  rw [Poly.toPolynomial_add hax.variant_eq hby.variant_eq,
    Poly.toPolynomial_mul ha.variant_eq hx.variant_eq,
    Poly.toPolynomial_mul hb.variant_eq hy.variant_eq]

/-- The check of a pair that fits the system bounds what the equation leaves of it. -/
theorem FittingPair.satisfies_iff {a b c x y : Poly K} {w₁ w₂ : ℕ} (hfits : FittingPair w₁ w₂ x y)
    (ha : a.IsOrdinary) (hb : b.IsOrdinary) (hc : c.IsOrdinary) (tol : ℝ) :
    satisfies (a * x + b * y) c tol = true ↔
      (a.toPolynomial * x.toPolynomial + b.toPolynomial * y.toPolynomial -
        c.toPolynomial).supNorm ≤ tol * max 1 c.toPolynomial.supNorm := by
  obtain ⟨hordinary, heq⟩ := toPolynomial_combination ha hb hfits.ordinary_fst hfits.ordinary_snd
  rw [PolynomialEquations.satisfies_iff hordinary hc, heq]

/-- The system `S v = rhs` that a run builds for `a x + b y = c`, with the vector that it gets. -/
structure SolvedSystem (kernels : LinearKernels K) (a b c : Poly K) (size : SystemSize)
    (S : Mat K) (rhs v : Array K) : Prop where
  /-- The matrix is the Sylvester matrix of the widths chosen. -/
  matrix_eq : sylvester? a b (size.degreeX + 1) (size.degreeY + 1)
    (showWidths (size.degreeX + 1) (size.degreeY + 1)) = .ok S
  /-- There is one row for every equation. -/
  rows_eq : S.rows = size.equations
  /-- There are as many columns as rows. -/
  cols_eq : S.cols = size.equations
  /-- The right side of the equation fits in. -/
  rhs_eq : padTo c.coef size.equations = .ok rhs
  /-- The right side has one entry for every row. -/
  size_rhs : rhs.size = size.equations
  /-- The vector is what elimination or least squares gives for this system. -/
  solution_eq : (solveOrFit kernels S rhs : Traced ℝ _).outcome = .ok v
  /-- The vector has one entry for every column. -/
  size_solution : v.size = size.equations

/-- Whatever the kernels return, the system for `a x + b y = c` is square with room for the right
side, and nothing fails: the run reads a pair with the degrees chosen off the vector that it gets
for this system, and gives out that pair if it passes the check and nothing otherwise. -/
theorem diophantinePair_safe {kernels : LinearKernels K} (hk : kernels.ReturnsSizes)
    {a b c : Poly K} (ha : a.IsOrdinary) (hb : b.IsOrdinary) (hc : c.IsOrdinary)
    (hazero : a.isZero = false) (hbzero : b.isZero = false) (policy : DegreePolicy) (tol : ℝ) :
    let size := policy.size a.degree b.degree c.degree
    ∃ S rhs v x y, SolvedSystem kernels a b c size S rhs v ∧
      x = unknownOf size.degreeX (v.extract 0 (size.degreeX + 1).toNat) a.symbol ∧
      y = unknownOf size.degreeY (v.extract (size.degreeX + 1).toNat v.size) a.symbol ∧
      x.IsOrdinary ∧ y.IsOrdinary ∧ x.degree ≤ size.degreeX ∧ y.degree ≤ size.degreeY ∧
      (diophantinePair kernels a b c policy tol).outcome =
        .ok (if (a.toPolynomial * x.toPolynomial + b.toPolynomial * y.toPolynomial -
            c.toPolynomial).supNorm ≤ tol * max 1 c.toPolynomial.supNorm
          then some (x, y) else none) := by
  intro size
  obtain ⟨w₁, w₂, m, hs⟩ := exists_squareSystem ha hb hc hazero hbzero policy
  obtain ⟨rhs, v, hpad, hrhs, hv, hsolve, hpair⟩ :=
    hs.exists_candidatePair (R := ℝ) hk ha hb hc hazero hbzero
  have hfits := fittingPair_unknownOf (hv.trans hs.square.symm) a.symbol
  have hsystem : SolvedSystem kernels a b c size (sylvester a b w₁ w₂) rhs v :=
    { matrix_eq := hs.sylvester?_eq _
      rows_eq := by rw [hs.rows_sylvester ha hb, hs.equations_eq]
      cols_eq := by rw [cols_sylvester, hs.square, hs.equations_eq]
      rhs_eq := hpad
      size_rhs := by rw [hrhs, hs.equations_eq]
      solution_eq := hsolve
      size_solution := by rw [hv, hs.equations_eq] }
  refine ⟨_, rhs, v, _, _, hsystem, rfl, rfl, ?_⟩
  rw [hs.degreeX_eq, hs.degreeY_eq, Int.sub_add_cancel, Int.toNat_natCast]
  refine ⟨hfits.ordinary_fst, hfits.ordinary_snd, hfits.degree_fst_le, hfits.degree_snd_le, ?_⟩
  rw [diophantinePair_outcome hpair tol]
  simp only [hfits.satisfies_iff ha hb hc tol]

/-- Kernels that solve nothing: elimination always gives up, and least squares answers with
ones. -/
def guessingKernels (K : Type) [One K] : LinearKernels K where
  solve _ _ := .error .singular
  leastSquares S _ := .ok (Array.replicate S.cols 1)
  rank _ := .error .breakdown
  nullBasis _ := .error .breakdown

theorem guessingKernels_returnsSizes : (guessingKernels K).ReturnsSizes where
  solve_size _ _ h := nomatch h
  leastSquares_size _ := ⟨_, rfl, Array.size_replicate⟩

/-- The guess for a system is a vector of ones. -/
theorem SolvedSystem.eq_replicate {a b c : Poly K} {size : SystemSize} {S : Mat K}
    {rhs v : Array K} (h : SolvedSystem (guessingKernels K) a b c size S rhs v) :
    v = Array.replicate S.cols 1 := by
  have hrhs : rhs.size = S.rows := Int.ofNat.inj (h.size_rhs.trans h.rows_eq.symm)
  have hv := h.solution_eq
  rw [solveOrFit, if_neg fun hsizes => hsizes.2 hrhs] at hv
  exact (Except.ok.inj ((Traced.outcome_note_bind _ _).symm.trans hv)).symm

/-- For `(1 + s) x + 2 y = 0`, where `x` has no column, the guess `y = 1` leaves `2`. A tolerance of
two lets it through. -/
theorem diophantinePair_safe_guess :
    (guessingKernels ℝ).ReturnsSizes ∧ (Poly.ofCoef #[(1 : ℝ), 1] "s").isZero = false ∧
      (Poly.ofCoef #[(2 : ℝ)] "s").isZero = false ∧
      ∃ S rhs x y, SolvedSystem (guessingKernels ℝ) (Poly.ofCoef #[1, 1] "s")
          (Poly.ofCoef #[2] "s") (Poly.ofCoef #[0] "s") ⟨-1, 0, 1⟩ S rhs #[1] ∧
        x = Poly.constant 0 "s" ∧ y = Poly.ofCoef #[1] "s" ∧ x.degree ≤ -1 ∧ y.degree ≤ 0 ∧
        (diophantinePair (guessingKernels ℝ) (Poly.ofCoef #[1, 1] "s") (Poly.ofCoef #[2] "s")
          (Poly.ofCoef #[0] "s") .minX 2).outcome = .ok (some (x, y)) := by
  have ha := Poly.isZero_ofCoef (c := #[(1 : ℝ), 1]) (i := 0) (by simp) "s"
  have hb := Poly.isZero_ofCoef (c := #[(2 : ℝ)]) (i := 0) (by simp) "s"
  have hc : (Poly.ofCoef #[(0 : ℝ)] "s").isZero = true := by
    rw [Poly.isZero_iff, Poly.toPolynomial_ofCoef, vectorPolynomial_singleton, C_0]
  have hsize : DegreePolicy.minX.size (Poly.ofCoef #[(1 : ℝ), 1] "s").degree
      (Poly.ofCoef #[(2 : ℝ)] "s").degree (Poly.ofCoef #[(0 : ℝ)] "s").degree = ⟨-1, 0, 1⟩ := by
    rw [Poly.degree_linear 1 one_ne_zero, Poly.degree_singleton two_ne_zero,
      Poly.degree_of_isZero hc]
    rfl
  obtain ⟨S, rhs, v, x, y, hsystem, hx, hy, -, -, hdx, hdy, houtcome⟩ :=
    diophantinePair_safe guessingKernels_returnsSizes (Poly.isOrdinary_ofCoef #[(1 : ℝ), 1] "s")
      (Poly.isOrdinary_ofCoef #[(2 : ℝ)] "s") (Poly.isOrdinary_ofCoef #[(0 : ℝ)] "s") ha hb .minX 2
  rw [hsize] at hsystem hx hy hdx hdy
  have hcols : S.cols = 1 := Int.ofNat.inj hsystem.cols_eq
  have hv : v = #[1] := by
    rw [hsystem.eq_replicate, hcols]
    rfl
  rw [Poly.symbol_ofCoef] at hx hy
  subst hv
  replace hx : x = Poly.constant 0 "s" := hx
  replace hy : y = Poly.ofCoef #[1] "s" := hy
  have hresidual : (Poly.ofCoef #[(1 : ℝ), 1] "s").toPolynomial * x.toPolynomial +
      (Poly.ofCoef #[(2 : ℝ)] "s").toPolynomial * y.toPolynomial -
        (Poly.ofCoef #[(0 : ℝ)] "s").toPolynomial = C 2 := by
    rw [hx, hy, Poly.toPolynomial_constant_zero]
    simp only [Poly.toPolynomial_ofCoef, vectorPolynomial_singleton, C_0, C_1, mul_zero, mul_one,
      zero_add, sub_zero]
  refine ⟨guessingKernels_returnsSizes, ha, hb, S, rhs, x, y, hsystem, hx, hy, hdx, hdy, ?_⟩
  rw [houtcome, hresidual, Poly.toPolynomial_ofCoef, vectorPolynomial_singleton, supNorm_C,
    supNorm_C, if_pos (by norm_num)]

end Safety

section Exactness

/-- An equation that can be solved has a solution that fits the system. -/
theorem SquareSystem.exists_fitting_solution {policy : DegreePolicy} {a b c : Poly K}
    {w₁ w₂ m : ℕ} (hs : SquareSystem policy a b c w₁ w₂ m) (hc : c.IsOrdinary)
    (hazero : a.isZero = false) (hbzero : b.isZero = false)
    (hdvd : EuclideanDomain.gcd a.toPolynomial b.toPolynomial ∣ c.toPolynomial) :
    ∃ X Y : K[X], a.toPolynomial * X + b.toPolynomial * Y = c.toPolynomial ∧
      X.degree < (w₁ : WithBot ℕ) ∧ Y.degree < (w₂ : WithBot ℕ) := by
  have hA := Poly.toPolynomial_ne_zero hazero
  have hB := Poly.toPolynomial_ne_zero hbzero
  have hroom := hs.room
  have hsquare := hs.square
  have hC : c.toPolynomial.degree < (m : WithBot ℕ) := by
    rw [← hc.degree_lt_iff]
    have hrhs := hs.rhs_le
    omega
  cases policy with
  | minY =>
    have hw₂ := hs.minY_eq rfl
    obtain ⟨X, Y, heq, hX, hY⟩ := exists_bounded_solution hA hB hdvd hroom hC
    refine ⟨X, Y, heq, ?_, by rwa [hw₂]⟩
    rwa [show w₁ = m - a.toPolynomial.natDegree by omega]
  | minX =>
    have hw₁ := hs.minX_eq rfl
    have hdvd' : EuclideanDomain.gcd b.toPolynomial a.toPolynomial ∣ c.toPolynomial :=
      (EuclideanDomain.dvd_gcd (EuclideanDomain.gcd_dvd_right _ _)
        (EuclideanDomain.gcd_dvd_left _ _)).trans hdvd
    obtain ⟨Y, X, heq, hY, hX⟩ := exists_bounded_solution hB hA hdvd' (by omega) hC
    refine ⟨X, Y, by rw [← heq, add_comm], by rwa [hw₁], ?_⟩
    rwa [show w₂ = m - b.toPolynomial.natDegree by omega]

/-- With exact kernels the candidate pair solves every equation that can be solved. -/
theorem SquareSystem.exists_solvingPair {kernels : LinearKernels K} (hk : kernels.SolvesExactly)
    {policy : DegreePolicy} {a b c : Poly K} {w₁ w₂ m : ℕ}
    (hs : SquareSystem policy a b c w₁ w₂ m) (ha : a.IsOrdinary) (hb : b.IsOrdinary)
    (hc : c.IsOrdinary) (hazero : a.isZero = false) (hbzero : b.isZero = false) :
    ∃ x y, FittingPair w₁ w₂ x y ∧
      (candidatePair kernels a b c policy : Traced ℝ _).outcome = .ok (x, y) ∧
      (EuclideanDomain.gcd a.toPolynomial b.toPolynomial ∣ c.toPolynomial →
        a.toPolynomial * x.toPolynomial + b.toPolynomial * y.toPolynomial = c.toPolynomial) := by
  obtain ⟨x, y, hfits, -, -, hpair, hleast⟩ := hs.exists_leastPair hk ha hb hc hazero hbzero
  refine ⟨x, y, hfits, hpair, fun hdvd => ?_⟩
  obtain ⟨X, Y, heq, hX, hY⟩ := hs.exists_fitting_solution hc hazero hbzero hdvd
  have hwidths : FitsWidths w₁ w₂ (X, Y) := ⟨hX, hY⟩
  exact hleast.solves hwidths heq

/-- With exact kernels and a tolerance that is not negative, a pair that solves the equation is
given out whenever there is one. -/
theorem SquareSystem.exists_solution {kernels : LinearKernels K} (hk : kernels.SolvesExactly)
    {policy : DegreePolicy} {a b c : Poly K} {w₁ w₂ m : ℕ}
    (hs : SquareSystem policy a b c w₁ w₂ m) (ha : a.IsOrdinary) (hb : b.IsOrdinary)
    (hc : c.IsOrdinary) (hazero : a.isZero = false) (hbzero : b.isZero = false) {tol : ℝ}
    (htol : 0 ≤ tol) (hdvd : EuclideanDomain.gcd a.toPolynomial b.toPolynomial ∣ c.toPolynomial) :
    ∃ x y, FittingPair w₁ w₂ x y ∧
      (diophantinePair kernels a b c policy tol).outcome = .ok (some (x, y)) ∧
      a.toPolynomial * x.toPolynomial + b.toPolynomial * y.toPolynomial = c.toPolynomial := by
  obtain ⟨x, y, hfits, hpair, hsolves⟩ := hs.exists_solvingPair hk ha hb hc hazero hbzero
  have heq := hsolves hdvd
  refine ⟨x, y, hfits, ?_, heq⟩
  rw [diophantinePair_outcome hpair tol, if_pos]
  rw [hfits.satisfies_iff ha hb hc, heq, sub_self, supNorm_zero]
  positivity

/-- With coprime coefficients, a solution that fits the blocks has the least degree of the unknown
that the policy names. -/
theorem SquareSystem.degree_le {policy : DegreePolicy} {a b c x y : Poly K} {w₁ w₂ m : ℕ}
    (hs : SquareSystem policy a b c w₁ w₂ m) (hfits : FittingPair w₁ w₂ x y)
    (hazero : a.isZero = false) (hbzero : b.isZero = false)
    (hcoprime : IsCoprime a.toPolynomial b.toPolynomial) {X Y : K[X]}
    (heq : a.toPolynomial * x.toPolynomial + b.toPolynomial * y.toPolynomial =
      a.toPolynomial * X + b.toPolynomial * Y) :
    (policy = .minY → y.toPolynomial.degree ≤ Y.degree) ∧
      (policy = .minX → x.toPolynomial.degree ≤ X.degree) := by
  constructor
  · intro hpolicy
    refine degree_le_of_isCoprime hcoprime heq ?_
    rw [degree_eq_natDegree (Poly.toPolynomial_ne_zero hazero), ← hs.minY_eq hpolicy,
      ← hfits.ordinary_snd.degree_lt_iff]
    exact Int.lt_of_le_sub_one hfits.degree_snd_le
  · intro hpolicy
    have hswapped : b.toPolynomial * y.toPolynomial + a.toPolynomial * x.toPolynomial =
        b.toPolynomial * Y + a.toPolynomial * X := by
      rw [add_comm, heq, add_comm]
    refine degree_le_of_isCoprime hcoprime.symm hswapped ?_
    rw [degree_eq_natDegree (Poly.toPolynomial_ne_zero hbzero), ← hs.minX_eq hpolicy,
      ← hfits.ordinary_fst.degree_lt_iff]
    exact Int.lt_of_le_sub_one hfits.degree_fst_le

/-- With exact kernels and a tolerance that is not negative, `a x + b y = c` is solved exactly
whenever the greatest common divisor of `a` and `b` divides `c`, with the degree that the policy
asks for, which is the least one of all solutions when `a` and `b` are coprime. Without tolerance
nothing is given out in the other cases. -/
theorem diophantinePair_exact {kernels : LinearKernels K} (hk : kernels.SolvesExactly)
    {a b c : Poly K} (ha : a.IsOrdinary) (hb : b.IsOrdinary) (hc : c.IsOrdinary)
    (hazero : a.isZero = false) (hbzero : b.isZero = false) (policy : DegreePolicy) {tol : ℝ}
    (htol : 0 ≤ tol) :
    (EuclideanDomain.gcd a.toPolynomial b.toPolynomial ∣ c.toPolynomial →
      ∃ x y, (diophantinePair kernels a b c policy tol).outcome = .ok (some (x, y)) ∧
        x.IsOrdinary ∧ y.IsOrdinary ∧
        a.toPolynomial * x.toPolynomial + b.toPolynomial * y.toPolynomial = c.toPolynomial ∧
        (policy = .minY → y.degree ≤ a.degree - 1) ∧
        (policy = .minX → x.degree ≤ b.degree - 1) ∧
        (IsCoprime a.toPolynomial b.toPolynomial → ∀ X Y : K[X],
          a.toPolynomial * X + b.toPolynomial * Y = c.toPolynomial →
            (policy = .minY → y.toPolynomial.degree ≤ Y.degree) ∧
            (policy = .minX → x.toPolynomial.degree ≤ X.degree))) ∧
    (tol = 0 → ((diophantinePair kernels a b c policy tol).outcome = .ok none ↔
      ¬EuclideanDomain.gcd a.toPolynomial b.toPolynomial ∣ c.toPolynomial)) := by
  obtain ⟨w₁, w₂, m, hs⟩ := exists_squareSystem ha hb hc hazero hbzero policy
  constructor
  · intro hdvd
    obtain ⟨x, y, hfits, houtcome, heq⟩ := hs.exists_solution hk ha hb hc hazero hbzero htol hdvd
    refine ⟨x, y, houtcome, hfits.ordinary_fst, hfits.ordinary_snd, heq, fun hpolicy => ?_,
      fun hpolicy => ?_, fun hcoprime X Y hXY => ?_⟩
    · rw [ha.degree_eq hazero, ← hs.minY_eq hpolicy]
      exact hfits.degree_snd_le
    · rw [hb.degree_eq hbzero, ← hs.minX_eq hpolicy]
      exact hfits.degree_fst_le
    · exact hs.degree_le hfits hazero hbzero hcoprime (heq.trans hXY.symm)
  · intro htolzero
    obtain ⟨x, y, hfits, hpair, hsolves⟩ := hs.exists_solvingPair hk ha hb hc hazero hbzero
    have hexact : satisfies (a * x + b * y) c tol = true ↔
        a.toPolynomial * x.toPolynomial + b.toPolynomial * y.toPolynomial = c.toPolynomial := by
      rw [hfits.satisfies_iff ha hb hc, htolzero, zero_mul, ← sub_eq_zero, ← supNorm_eq_zero_iff]
      exact ⟨fun h => le_antisymm h (supNorm_nonneg _), fun h => h.le⟩
    rw [diophantinePair_outcome hpair tol]
    by_cases hdvd : EuclideanDomain.gcd a.toPolynomial b.toPolynomial ∣ c.toPolynomial
    · rw [if_pos (hexact.mpr (hsolves hdvd))]
      exact iff_of_false (by simp) (not_not_intro hdvd)
    · rw [if_neg fun h => hdvd (gcd_dvd_of_solution (hexact.mp h))]
      exact iff_of_true rfl hdvd

/-- The greatest common divisor of `(1 + s) (2 + s)` and `(1 + s) (3 + s)` divides `1 + s`. -/
theorem gcd_dvd_common_factor (s t u : String) :
    EuclideanDomain.gcd (Poly.ofCoef #[(2 : ℂ), 3, 1] s).toPolynomial
      (Poly.ofCoef #[(3 : ℂ), 4, 1] t).toPolynomial ∣
        (Poly.ofCoef #[(1 : ℂ), 1] u).toPolynomial := by
  have hdifference : (Poly.ofCoef #[(2 : ℂ), 3, 1] s).toPolynomial * (-1) +
      (Poly.ofCoef #[(3 : ℂ), 4, 1] t).toPolynomial * 1 =
        (Poly.ofCoef #[(1 : ℂ), 1] u).toPolynomial := by
    ext n
    rcases n with _ | _ | _ | n <;> norm_num
  exact gcd_dvd_of_solution hdifference

/-- The equation for `(1 + s) (2 + s)` and `(1 + s) (3 + s)` with right side `1 + s` is solved. -/
theorem diophantinePair_exact_common_factor :
    (exactKernels ℂ).SolvesExactly ∧ (0 : ℝ) ≤ 0 ∧
      (Poly.ofCoef #[(2 : ℂ), 3, 1] "s").isZero = false ∧
      (Poly.ofCoef #[(3 : ℂ), 4, 1] "s").isZero = false ∧
      ∃ x y, (diophantinePair (exactKernels ℂ) (Poly.ofCoef #[2, 3, 1] "s")
          (Poly.ofCoef #[3, 4, 1] "s") (Poly.ofCoef #[1, 1] "s") .minY 0).outcome =
            .ok (some (x, y)) ∧
        (Poly.ofCoef #[(2 : ℂ), 3, 1] "s").toPolynomial * x.toPolynomial +
          (Poly.ofCoef #[(3 : ℂ), 4, 1] "s").toPolynomial * y.toPolynomial =
            (Poly.ofCoef #[(1 : ℂ), 1] "s").toPolynomial := by
  have ha := Poly.isZero_ofCoef (c := #[(2 : ℂ), 3, 1]) (i := 0) (by simp) "s"
  have hb := Poly.isZero_ofCoef (c := #[(3 : ℂ), 4, 1]) (i := 0) (by simp) "s"
  obtain ⟨x, y, houtcome, -, -, heq, -⟩ := (diophantinePair_exact exactKernels_solvesExactly
    (Poly.isOrdinary_ofCoef _ _) (Poly.isOrdinary_ofCoef _ _) (Poly.isOrdinary_ofCoef _ _) ha hb
    .minY le_rfl).1 (gcd_dvd_common_factor _ _ _)
  exact ⟨exactKernels_solvesExactly, le_rfl, ha, hb, x, y, houtcome, heq⟩

end Exactness

end PolynomialEquations
