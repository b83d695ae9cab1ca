import PolynomialEquations.Proofs.Equation.LeastResidual
import PolynomialEquations.Proofs.Journal
import PolynomialEquations.Proofs.Matrix.Sylvester
import PolynomialEquations.Proofs.Poly.Norm

/-!
# The equation with least absolute sum

For every degree of `y` the banded matrix of `a` has one row for each coefficient of the right side,
and the vector with the least absolute sum of its residual gives the polynomials `x` and `y`.
Raising the degree adds a column to the matrix and a zero to the right side, which stands for the
same polynomial. So the search meets the least absolute sum for one degree after the other, and ends
at the first one that improves too little, or at the last admissible one. Whichever degree comes
last, its solution is the best one for that degree.
-/

namespace PolynomialEquations

open Polynomial

section AbsoluteSum

/-- The sum of the absolute values of the coefficients. -/
def absoluteSum (p : ℝ[X]) : ℝ := ∑ i ∈ p.support, |p.coeff i|

/-- The absolute sum over all exponents below a bound of the degree. -/
theorem absoluteSum_eq {p : ℝ[X]} {m : ℕ} (hp : p.degree < (m : WithBot ℕ)) :
    absoluteSum p = ∑ i ∈ Finset.range m, |p.coeff i| :=
  sum_support_eq_sum_range hp abs_zero

theorem absoluteSum_nonneg (p : ℝ[X]) : 0 ≤ absoluteSum p :=
  Finset.sum_nonneg fun i _ => abs_nonneg (p.coeff i)

/-- The least absolute sum that the multiples of `A` of degree at most `D` leave of `C`. -/
noncomputable def leastAbsoluteSum (A C : ℝ[X]) (D : ℕ) : ℝ :=
  ⨅ X : {X : ℝ[X] // X.natDegree ≤ D - A.natDegree}, absoluteSum (C - A * X)

theorem leastAbsoluteSum_le (A C : ℝ[X]) {X : ℝ[X]} {D : ℕ} (hX : X.natDegree ≤ D - A.natDegree) :
    leastAbsoluteSum A C D ≤ absoluteSum (C - A * X) :=
  ciInf_le ⟨0, Set.forall_mem_range.mpr fun _ => absoluteSum_nonneg _⟩
    (⟨X, hX⟩ : {X : ℝ[X] // X.natDegree ≤ D - A.natDegree})

/-- A larger degree does not raise the least absolute sum, as it leaves all multiples admissible. -/
theorem leastAbsoluteSum_antitone (A C : ℝ[X]) : Antitone (leastAbsoluteSum A C) := by
  intro D D' hD
  have : Nonempty {X : ℝ[X] // X.natDegree ≤ D - A.natDegree} := ⟨0, by simp⟩
  exact le_ciInf fun X => leastAbsoluteSum_le A C (X.2.trans (Nat.sub_le_sub_right hD _))

/-- The multiple zero leaves the absolute sum of `C` itself. -/
theorem leastAbsoluteSum_le_absoluteSum (A C : ℝ[X]) (D : ℕ) :
    leastAbsoluteSum A C D ≤ absoluteSum C := by
  have hzero := leastAbsoluteSum_le A C (X := 0) (D := D) (by simp)
  rwa [mul_zero, sub_zero] at hzero

end AbsoluteSum

variable {solver solver' : ProgramSolver ℝ} {a c x y : Poly ℝ} {b : Array ℝ} {bound : ℤ}
  {emax value : ℝ}

section Degree

/-- The coefficients of a solution of `A x + y = C` with `y` of degree at most `D` and least
absolute sum, and that sum. -/
structure IsLeastSum (A C : ℝ[X]) (D : ℕ) (best : LeastSum ℝ) : Prop where
  /-- The degree of `x` is at most the difference of the degrees. -/
  size_x : best.x.size = D - A.natDegree + 1
  /-- The degree of `y` is at most `D`. -/
  size_y : best.y.size = D + 1
  /-- The equation is solved. -/
  add_eq : A * vectorPolynomial best.x + vectorPolynomial best.y = C
  /-- The value is the absolute sum of `y`. -/
  value_eq : best.value = absoluteSum (vectorPolynomial best.y)
  /-- No other `x` leaves a smaller absolute sum. -/
  minimal : ∀ X : ℝ[X], X.natDegree ≤ D - A.natDegree → best.value ≤ absoluteSum (C - A * X)

/-- The value of a solution of least absolute sum does not depend on the solution. -/
theorem IsLeastSum.value_eq_leastAbsoluteSum {A C : ℝ[X]} {D : ℕ} {best : LeastSum ℝ}
    (h : IsLeastSum A C D best) : best.value = leastAbsoluteSum A C D := by
  have : Nonempty {X : ℝ[X] // X.natDegree ≤ D - A.natDegree} := ⟨0, by simp⟩
  have hx : (vectorPolynomial best.x).natDegree ≤ D - A.natDegree := by
    rw [natDegree_le_iff_coeff_eq_zero]
    intro i hi
    rw [coeff_vectorPolynomial, getD_of_size_le (by rw [h.size_x]; omega)]
  apply le_antisymm
  · exact le_ciInf fun X => h.minimal X X.2
  · rw [h.value_eq, ← add_sub_cancel_left (A * vectorPolynomial best.x) (vectorPolynomial best.y),
      h.add_eq]
    exact leastAbsoluteSum_le A C hx

/-- The banded matrix for degree `D` has one row for each coefficient of `y`. -/
theorem rows_toeplitz_of_degree (ha : a.IsOrdinary) {D : ℕ} (hD : a.toPolynomial.natDegree ≤ D) :
    (toeplitz a (D - a.toPolynomial.natDegree + 1)).rows = D + 1 := by
  rw [rows_toeplitz, ha.size_coef]
  omega

/-- The residual of a vector stands for what the product with `a` leaves of the right side. -/
theorem residualEntry_toeplitz (a : Poly ℝ) (b u : Array ℝ) (i : ℕ) :
    residualEntry (toeplitz a u.size) b u i =
      (vectorPolynomial b - a.toPolynomial * vectorPolynomial u).coeff i := by
  rw [← vectorPolynomial_mulVec_toeplitz, Polynomial.coeff_sub, coeff_vectorPolynomial,
    coeff_vectorPolynomial]
  rfl

/-- A vector with the least absolute sum of its residual gives a solution with the least absolute
sum. -/
theorem IsLeastResidual.isLeastSum {D : ℕ} {best : LeastSum ℝ}
    (h : IsLeastResidual (toeplitz a (D - a.toPolynomial.natDegree + 1)) b best)
    (ha : a.IsOrdinary) (hD : a.toPolynomial.natDegree ≤ D) (hb : b.size = D + 1) :
    IsLeastSum a.toPolynomial (vectorPolynomial b) D best := by
  have hrows := rows_toeplitz_of_degree ha hD
  have hdegree : ∀ u : Array ℝ, u.size = D - a.toPolynomial.natDegree + 1 →
      (vectorPolynomial b - a.toPolynomial * vectorPolynomial u).degree <
        ((D + 1 : ℕ) : WithBot ℕ) := by
    intro u hu
    refine lt_of_le_of_lt (degree_sub_le _ _) (max_lt (degree_vectorPolynomial_lt hb.le) ?_)
    rw [← vectorPolynomial_mulVec_toeplitz]
    exact degree_vectorPolynomial_lt (by rw [Mat.size_mulVec, hu, hrows])
  have hsum : ∀ u : Array ℝ, u.size = D - a.toPolynomial.natDegree + 1 →
      residualSum (toeplitz a (D - a.toPolynomial.natDegree + 1)) b u =
        absoluteSum (vectorPolynomial b - a.toPolynomial * vectorPolynomial u) := by
    intro u hu
    rw [absoluteSum_eq (hdegree u hu), residualSum, hrows]
    refine Finset.sum_congr rfl fun i _ => ?_
    rw [← hu, residualEntry_toeplitz]
  have hsize : best.x.size = D - a.toPolynomial.natDegree + 1 := h.size_x
  have hy : vectorPolynomial best.y =
      vectorPolynomial b - a.toPolynomial * vectorPolynomial best.x := by
    ext i
    by_cases hi : i < D + 1
    · rw [coeff_vectorPolynomial, h.residual_eq i (hrows ▸ hi), ← hsize, residualEntry_toeplitz]
    · rw [coeff_vectorPolynomial, getD_of_size_le (by rw [h.size_y, hrows]; omega)]
      exact ((degree_lt_iff_coeff_zero _ _).mp (hdegree _ hsize) i (by omega)).symm
  constructor
  case size_x => exact hsize
  case size_y => rw [h.size_y, hrows]
  case add_eq => rw [hy, add_sub_cancel]
  case value_eq => rw [h.value_eq, hsum _ hsize, hy]
  case minimal =>
    intro X hX
    have hX' : X.degree < ((D - a.toPolynomial.natDegree + 1 : ℕ) : WithBot ℕ) :=
      lt_of_le_of_lt degree_le_natDegree (by exact_mod_cast Nat.lt_succ_of_le hX)
    obtain ⟨u, hu, rfl⟩ := exists_vectorPolynomial_eq hX'
    rw [← hsum u hu]
    exact h.minimal u

/-- The degree of `x` for degree `D` of `y`. -/
theorem toNat_sub_degree (ha : a.IsOrdinary) (hzero : a.isZero = false) (D : ℕ) :
    ((D : ℤ) - a.degree).toNat = D - a.toPolynomial.natDegree := by
  rw [ha.degree_eq hzero]
  omega

/-- The step for a degree asks the solver for one program only, which is well posed. -/
theorem solveDegree_congr (hsolver : solver'.AgreesWith solver) (ha : a.IsOrdinary)
    (hzero : a.isZero = false) {D : ℕ} (hD : a.toPolynomial.natDegree ≤ D)
    (hb : b.size = D + 1) :
    solveDegree solver' a a.degree D b = solveDegree solver a a.degree D b := by
  have hposed := isWellPosed_residualProgram (hb.trans (rows_toeplitz_of_degree ha hD).symm)
  rw [solveDegree, solveDegree, toNat_sub_degree ha hzero, leastResidual, leastResidual,
    hsolver _ hposed]

/-- With an exact solver the step for a degree ends with a solution of least absolute sum, and
writes the degrees and the optimum. -/
theorem exists_solveDegree (hs : solver.SolvesPrograms) (ha : a.IsOrdinary)
    (hzero : a.isZero = false) {D : ℕ} (hD : a.toPolynomial.natDegree ≤ D)
    (hb : b.size = D + 1) :
    ∃ best, solveDegree solver a a.degree D b =
        ⟨[.optimum best.value (D - a.degree) D], .ok best⟩ ∧
      IsLeastSum a.toPolynomial (vectorPolynomial b) D best := by
  obtain ⟨best, hsolve, hbest⟩ := exists_leastResidual hs
    (hb.trans (rows_toeplitz_of_degree ha hD).symm)
  refine ⟨best, ?_, hbest.isLeastSum ha hD hb⟩
  rw [solveDegree, toNat_sub_degree ha hzero, hsolve]
  rfl

end Degree

section Loop

/-- A zero at the end stands for the same polynomial. -/
theorem vectorPolynomial_push_zero (b : Array ℝ) :
    vectorPolynomial (b.push 0) = vectorPolynomial b := by
  refine vectorPolynomial_congr fun i => ?_
  simp only [Array.getD_eq_getD_getElem?, Array.getElem?_push]
  split
  · next hi => rw [hi, Array.getElem?_eq_none le_rfl, Option.getD_some, Option.getD_none]
  · rfl

/-- However often the degree is raised, all programs that the solver is asked for are well posed. -/
theorem raiseDegree_congr (hsolver : solver'.AgreesWith solver) (ha : a.IsOrdinary)
    (hzero : a.isZero = false) (bound : ℤ) (emax : ℝ) (steps : ℕ) {dy : ℕ}
    (hdy : a.toPolynomial.natDegree ≤ dy) (hb : b.size = dy + 1) (previous : Option ℝ) :
    raiseDegree solver' a a.degree bound emax steps dy b previous =
      raiseDegree solver a a.degree bound emax steps dy b previous := by
  induction steps generalizing dy b previous with
  | zero => rw [raiseDegree, raiseDegree, solveDegree_congr hsolver ha hzero hdy hb]
  | succ steps ih =>
    -- the right side grows with the degree, so the next program has the right number of rows again
    have hsize : (b.push 0).size = dy + 1 + 1 := by rw [Array.size_push, hb]
    have hnext := fun previous => ih (Nat.le_succ_of_le hdy) hsize previous
    rw [raiseDegree, raiseDegree, solveDegree_congr hsolver ha hzero hdy hb]
    simp only [← Nat.cast_succ, hnext]

/-- The optimum that the one for degree `d` is compared with: that for the degree before, and for
the first degree the one given, if any. -/
def precedingOptimum (previous : Option ℝ) (optimum : ℕ → ℝ) (first d : ℕ) : Option ℝ :=
  if d = first then previous else some (optimum (d - 1))

/-- The optimum for degree `d` improves by less than `emax` on the one before. -/
def Settles (previous : Option ℝ) (optimum : ℕ → ℝ) (emax : ℝ) (first d : ℕ) : Prop :=
  hasSettled (precedingOptimum previous optimum first d) (optimum d) emax = true

/-- For the first degree the optimum is compared with the one given. -/
theorem settles_first_iff (previous : Option ℝ) (optimum : ℕ → ℝ) (emax : ℝ) (first : ℕ) :
    Settles previous optimum emax first first ↔
      hasSettled previous (optimum first) emax = true := by
  rw [Settles, precedingOptimum, if_pos rfl]

/-- Behind the first degree it does not matter where the search started. -/
theorem settles_succ_iff (previous : Option ℝ) (optimum : ℕ → ℝ) (emax : ℝ) {first d : ℕ}
    (hd : first + 1 ≤ d) : Settles (some (optimum first)) optimum emax (first + 1) d ↔
      Settles previous optimum emax first d := by
  have hpreceding : precedingOptimum (some (optimum first)) optimum (first + 1) d =
      precedingOptimum previous optimum first d := by
    unfold precedingOptimum
    rw [if_neg (show d ≠ first by omega)]
    by_cases heq : d = first + 1
    · rw [if_pos heq, heq, Nat.add_sub_cancel]
    · rw [if_neg heq]
  rw [Settles, Settles, hpreceding]

/-- A search over the degrees from `first` to `last` ends at degree `D`: the first one with the
property, or the last one. -/
structure EndsAt (settles : ℕ → Prop) (first last D : ℕ) : Prop where
  /-- The end is not before the first degree. -/
  first_le : first ≤ D
  /-- The end is not behind the last degree. -/
  le_last : D ≤ last
  /-- No degree before the end has the property. -/
  not_before : ∀ d, first ≤ d → d < D → ¬settles d
  /-- The end has the property or is the last degree. -/
  settles_or_last : settles D ∨ D = last

/-- A search that does not end at its first degree goes on with the next one. -/
theorem EndsAt.of_succ {settles settles' : ℕ → Prop} {first last D : ℕ}
    (h : EndsAt settles' (first + 1) last D) (hfirst : ¬settles first)
    (hsettles : ∀ d, first + 1 ≤ d → (settles' d ↔ settles d)) : EndsAt settles first last D where
  first_le := Nat.le_of_succ_le h.first_le
  le_last := h.le_last
  not_before d hd hlt := by
    rcases hd.eq_or_lt with rfl | hgt
    · exact hfirst
    · exact (hsettles d hgt).not.mp (h.not_before d hgt hlt)
  settles_or_last := h.settles_or_last.imp_left (hsettles D h.first_le).mp

/-- The journal of the programs for the degrees from `first` to `D`. -/
def searchJournal (optimum : ℕ → ℝ) (da : ℤ) (first D : ℕ) : List (Event ℝ) :=
  (List.range' first (D + 1 - first)).map fun d => .optimum (optimum d) (d - da) d

theorem searchJournal_self (optimum : ℕ → ℝ) (da : ℤ) (D : ℕ) :
    searchJournal optimum da D D = [.optimum (optimum D) (D - da) D] := by
  rw [searchJournal, Nat.add_sub_cancel_left]
  rfl

/-- The journal begins with the first degree. -/
theorem searchJournal_of_lt (optimum : ℕ → ℝ) (da : ℤ) {first D : ℕ} (h : first < D) :
    searchJournal optimum da first D =
      .optimum (optimum first) (first - da) first :: searchJournal optimum da (first + 1) D := by
  have hlength : D + 1 - first = D + 1 - (first + 1) + 1 := by omega
  rw [searchJournal, hlength, List.range'_succ]
  rfl

/-- The journal ends with the last degree. -/
theorem searchJournal_eq_append (optimum : ℕ → ℝ) (da : ℤ) {first D : ℕ} (h : first ≤ D) :
    ∃ earlier, searchJournal optimum da first D = earlier ++ [.optimum (optimum D) (D - da) D] := by
  have hlength : D + 1 - first = D - first + 1 := by omega
  have hlast : first + 1 * (D - first) = D := by omega
  rw [searchJournal, hlength, List.range'_concat, hlast, List.map_append]
  exact ⟨_, rfl⟩

/-- The run solves the programs for the degrees from `first` to `D`, where the search ends, and
returns the last solution. It notes when the last degree was reached while the optimum improved. -/
structure IsSearch (run : Traced ℝ (LeastSum ℝ)) (previous : Option ℝ) (optimum : ℕ → ℝ)
    (da bound : ℤ) (emax : ℝ) (first last D : ℕ) (best : LeastSum ℝ) : Prop where
  /-- The search ends at degree `D`. -/
  endsAt : EndsAt (Settles previous optimum emax first) first last D
  /-- The last solution is returned. -/
  outcome_eq : run.outcome = .ok best
  /-- The journal holds one event for each degree, and at most the note that the bound was
  reached. -/
  journal_eq : ∃ ending, run.journal = searchJournal optimum da first D ++ ending ∧
    (Settles previous optimum emax first D ∧ ending = [] ∨
      ¬Settles previous optimum emax first D ∧ ending = [.boundReached bound])

section IsSearch

variable {run : Traced ℝ (LeastSum ℝ)} {previous : Option ℝ} {optimum : ℕ → ℝ} {da : ℤ}
  {first last D : ℕ} {best : LeastSum ℝ}

/-- A search whose first optimum settles ends there. -/
theorem IsSearch.of_settles (h : Settles previous optimum emax first first) (hle : first ≤ last) :
    IsSearch ⟨[.optimum (optimum first) (first - da) first], .ok best⟩ previous optimum da bound
      emax first last first best where
  endsAt := ⟨le_rfl, hle, fun _ hd hlt => absurd hd hlt.not_ge, Or.inl h⟩
  outcome_eq := rfl
  journal_eq := ⟨[], by rw [searchJournal_self, List.append_nil], Or.inl ⟨h, rfl⟩⟩

/-- A search whose first degree is the last one ends there, with a note unless the optimum
settles. -/
theorem IsSearch.of_not_settles (h : ¬Settles previous optimum emax first first) :
    IsSearch ⟨[.optimum (optimum first) (first - da) first, .boundReached bound], .ok best⟩ previous
      optimum da bound emax first first first best where
  endsAt := ⟨le_rfl, le_rfl, fun _ hd hlt => absurd hd hlt.not_ge, Or.inr rfl⟩
  outcome_eq := rfl
  journal_eq := ⟨[.boundReached bound], by rw [searchJournal_self]; rfl, Or.inr ⟨h, rfl⟩⟩

/-- A search whose first optimum does not settle goes on with the next degree. -/
theorem IsSearch.cons
    (h : IsSearch run (some (optimum first)) optimum da bound emax (first + 1) last D best)
    (hfirst : ¬Settles previous optimum emax first first) :
    IsSearch ⟨.optimum (optimum first) (first - da) first :: run.journal, run.outcome⟩ previous
      optimum da bound emax first last D best := by
  have hend := settles_succ_iff previous optimum emax h.endsAt.first_le
  obtain ⟨ending, hjournal, hending⟩ := h.journal_eq
  constructor
  case endsAt => exact h.endsAt.of_succ hfirst fun d hd => settles_succ_iff previous optimum emax hd
  case outcome_eq => exact h.outcome_eq
  case journal_eq =>
    refine ⟨ending, ?_, by rwa [← hend]⟩
    dsimp only
    rw [hjournal, searchJournal_of_lt optimum da h.endsAt.first_le, List.cons_append]

end IsSearch

/-- With an exact solver the search meets the least absolute sum for every degree up to the last
one, and returns a solution for that degree. -/
theorem exists_isSearch (hs : solver.SolvesPrograms) (ha : a.IsOrdinary) (hzero : a.isZero = false)
    (bound : ℤ) (emax : ℝ) (steps : ℕ) {C : ℝ[X]} {dy : ℕ} (hdy : a.toPolynomial.natDegree ≤ dy)
    (hb : b.size = dy + 1) (hC : vectorPolynomial b = C) (previous : Option ℝ) :
    ∃ D best, IsLeastSum a.toPolynomial C D best ∧
      IsSearch (raiseDegree solver a a.degree bound emax steps dy b previous) previous
        (leastAbsoluteSum a.toPolynomial C) a.degree bound emax dy (dy + steps) D best := by
  -- the right side keeps its polynomial, so the optimum for a degree does not depend on the step
  induction steps generalizing dy b previous with
  | zero =>
    obtain ⟨best, hstep, hbest⟩ := exists_solveDegree hs ha hzero hdy hb
    rw [hC] at hbest
    refine ⟨dy, best, hbest, ?_⟩
    have hfirst := settles_first_iff previous (leastAbsoluteSum a.toPolynomial C) emax dy
    rw [raiseDegree, hstep, Traced.bind_of_ok _ rfl, hbest.value_eq_leastAbsoluteSum]
    dsimp only
    split
    · next hsettled => exact .of_settles (hfirst.mpr hsettled) le_rfl
    · next hsettled => exact .of_not_settles (hfirst.not.mpr hsettled)
  | succ steps ih =>
    obtain ⟨best, hstep, hbest⟩ := exists_solveDegree hs ha hzero hdy hb
    rw [hC] at hbest
    have hfirst := settles_first_iff previous (leastAbsoluteSum a.toPolynomial C) emax dy
    rw [raiseDegree, hstep, Traced.bind_of_ok _ rfl, hbest.value_eq_leastAbsoluteSum]
    dsimp only
    split
    · next hsettled =>
      exact ⟨dy, best, hbest, .of_settles (hfirst.mpr hsettled) (Nat.le_add_right _ _)⟩
    · next hsettled =>
      have hsize : (b.push 0).size = dy + 1 + 1 := by rw [Array.size_push, hb]
      have hdy' : a.toPolynomial.natDegree ≤ dy + 1 := Nat.le_succ_of_le hdy
      obtain ⟨D, last, hlast, hrun⟩ := ih hdy' hsize
        ((vectorPolynomial_push_zero b).trans hC) (some (leastAbsoluteSum a.toPolynomial C dy))
      rw [Nat.add_assoc, Nat.add_comm 1 steps] at hrun
      exact ⟨D, last, hlast, hrun.cons (hfirst.not.mpr hsettled)⟩

/-- The degrees and the optimum of the last step stand at the end of the journal, behind those of
earlier steps and before at most the note that the bound was reached, and the outcome is the
solution of the last step. -/
def EndsWith (run : Traced ℝ (LeastSum ℝ)) (da bound : ℤ) (D : ℕ) (best : LeastSum ℝ) : Prop :=
  run.outcome = .ok best ∧ ∃ earlier ending,
    run.journal = earlier ++ .optimum best.value (D - da) D :: ending ∧
      (ending = [] ∨ ending = [.boundReached bound])

/-- However often the degree is raised, the run ends with a solution of least absolute sum for the
last degree. -/
theorem exists_raiseDegree (hs : solver.SolvesPrograms) (ha : a.IsOrdinary)
    (hzero : a.isZero = false) (bound : ℤ) (emax : ℝ) (steps : ℕ) {dy : ℕ}
    (hdy : a.toPolynomial.natDegree ≤ dy) (hb : b.size = dy + 1) (previous : Option ℝ) :
    ∃ D best, EndsWith (raiseDegree solver a a.degree bound emax steps dy b previous) a.degree bound
        D best ∧
      dy ≤ D ∧ D ≤ dy + steps ∧ IsLeastSum a.toPolynomial (vectorPolynomial b) D best := by
  obtain ⟨D, best, hbest, hrun⟩ := exists_isSearch hs ha hzero bound emax steps hdy hb rfl previous
  obtain ⟨ending, hjournal, hending⟩ := hrun.journal_eq
  obtain ⟨earlier, hsearch⟩ := searchJournal_eq_append (leastAbsoluteSum a.toPolynomial
    (vectorPolynomial b)) a.degree hrun.endsAt.first_le
  refine ⟨D, best, ⟨hrun.outcome_eq, earlier, ending, ?_, hending.imp And.right And.right⟩,
    hrun.endsAt.first_le, hrun.endsAt.le_last, hbest⟩
  rw [hjournal, hsearch, hbest.value_eq_leastAbsoluteSum, List.append_assoc, List.singleton_append]

end Loop

section Pair

/-- A solution of `a x + y = c` for degree `D` with `y` of least absolute sum, and that sum. -/
structure IsLeastSumPair (a c : Poly ℝ) (D : ℤ) (x y : Poly ℝ) (value : ℝ) : Prop where
  /-- The first unknown is an ordinary polynomial. -/
  ordinary_x : x.IsOrdinary
  /-- The second unknown is an ordinary polynomial. -/
  ordinary_y : y.IsOrdinary
  /-- The equation is solved. -/
  add_eq : (a * x + y).toPolynomial = c.toPolynomial
  /-- The degree of `x` is at most the difference of the degrees. -/
  degree_x_le : x.degree ≤ D - a.degree
  /-- The degree of `y` is at most `D`. -/
  degree_y_le : y.degree ≤ D
  /-- The value is the absolute sum of `y`. -/
  value_eq : value = absoluteSum y.toPolynomial
  /-- No other `x` of that degree leaves a smaller absolute sum. -/
  minimal : ∀ x' : Poly ℝ, x'.IsOrdinary → x'.degree ≤ D - a.degree →
    value ≤ absoluteSum (c - a * x').toPolynomial

/-- The stored vectors of a solution of least absolute sum make polynomials that are one. -/
theorem IsLeastSum.isLeastSumPair {D : ℕ} {best : LeastSum ℝ}
    (h : IsLeastSum a.toPolynomial c.toPolynomial D best) (ha : a.IsOrdinary)
    (hzero : a.isZero = false) (hc : c.IsOrdinary) (hD : a.toPolynomial.natDegree ≤ D)
    (s : String) :
    IsLeastSumPair a c D (Poly.ofCoef best.x s) (Poly.ofCoef best.y s) best.value := by
  have hx := Poly.isOrdinary_ofCoef best.x s
  have hy := Poly.isOrdinary_ofCoef best.y s
  have hdegree := ha.degree_eq hzero
  constructor
  case ordinary_x => exact hx
  case ordinary_y => exact hy
  case add_eq =>
    rw [Poly.toPolynomial_add (Poly.isOrdinary_mul ha.variant_eq hx.variant_eq).variant_eq
      hy.variant_eq, Poly.toPolynomial_mul ha.variant_eq hx.variant_eq, Poly.toPolynomial_ofCoef,
      Poly.toPolynomial_ofCoef, h.add_eq]
  case degree_x_le =>
    have hlt := (hx.degree_lt_iff best.x.size).mpr (by
      rw [Poly.toPolynomial_ofCoef]
      exact degree_vectorPolynomial_lt le_rfl)
    rw [h.size_x] at hlt
    omega
  case degree_y_le =>
    have hlt := (hy.degree_lt_iff best.y.size).mpr (by
      rw [Poly.toPolynomial_ofCoef]
      exact degree_vectorPolynomial_lt le_rfl)
    rw [h.size_y] at hlt
    omega
  case value_eq => rw [Poly.toPolynomial_ofCoef, h.value_eq]
  case minimal =>
    intro x' hx' hle
    have hwidth : x'.toPolynomial.natDegree ≤ D - a.toPolynomial.natDegree := by
      have hsize := hx'.size_coef_eq
      rw [hx'.size_coef] at hsize
      omega
    rw [Poly.toPolynomial_sub hc.variant_eq
      (Poly.isOrdinary_mul ha.variant_eq hx'.variant_eq).variant_eq,
      Poly.toPolynomial_mul ha.variant_eq hx'.variant_eq]
    exact h.minimal _ hwidth

/-- For a bound that is high enough the run raises the degree of `y` from the least one on, with the
right side filled up to that degree. -/
theorem exists_leastSumPair_eq (ha : a.IsOrdinary) (hzero : a.isZero = false) (hc : c.IsOrdinary)
    (hbound : max a.degree c.degree ≤ bound) :
    ∃ (least : ℕ) (b : Array ℝ), leastDegree a c = least ∧ a.toPolynomial.natDegree ≤ least ∧
      b.size = least + 1 ∧ vectorPolynomial b = c.toPolynomial ∧
      ∀ solver emax, leastSumPair solver a c bound emax = (do
        let best ← raiseDegree solver a a.degree bound emax (bound - least).toNat least b none
        return (Poly.ofCoef best.x a.symbol, Poly.ofCoef best.y a.symbol, best.value)) := by
  have hdegree := ha.degree_eq hzero
  have hsize := hc.size_coef_eq
  let least := (leastDegree a c).toNat
  have hleast : leastDegree a c = least := by
    simp only [least, leastDegree]
    omega
  have hmax : max a.degree c.degree = least := hleast
  obtain ⟨b, hpad, hb⟩ := exists_padTo (show c.coef.size ≤ least + 1 by omega)
  refine ⟨least, b, hleast, by omega, hb, vectorPolynomial_congr (getD_padTo hpad),
    fun solver emax => ?_⟩
  have hpad' : padTo c.coef ((least : ℤ) + 1) = .ok b := hpad
  rw [leastSumPair, if_neg (by simp [hzero]), hleast, if_neg (by omega), hpad']
  rfl

/-- With an exact solver there is always a solution. Every program posed is well posed, so the run
does not depend on what the solver makes of others, and for the last degree tried the solution is
one of least absolute sum. -/
theorem leastSumPair_returns (hs : solver.SolvesPrograms) (ha : a.IsOrdinary)
    (hzero : a.isZero = false) (hc : c.IsOrdinary) (hbound : max a.degree c.degree ≤ bound)
    (emax : ℝ) :
    (∀ (D : ℤ) (b : Array ℝ), max a.degree c.degree ≤ D → b.size = D + 1 →
      (residualProgram (toeplitz a ((D - a.degree).toNat + 1)) b).IsWellPosed) ∧
    (∀ solver' : ProgramSolver ℝ, solver'.AgreesWith solver →
      leastSumPair solver' a c bound emax = leastSumPair solver a c bound emax) ∧
    ∃ D x y value earlier ending,
      leastSumPair solver a c bound emax =
        ⟨earlier ++ .optimum value (D - a.degree) D :: ending, .ok (x, y, value)⟩ ∧
      (ending = [] ∨ ending = [.boundReached bound]) ∧
      max a.degree c.degree ≤ D ∧ D ≤ bound ∧ IsLeastSumPair a c D x y value := by
  have hdegree := ha.degree_eq hzero
  obtain ⟨least, b, hleast, hdy, hb, hpolynomial, hrun⟩ :=
    exists_leastSumPair_eq ha hzero hc hbound
  have hmax : max a.degree c.degree = least := hleast
  refine ⟨fun D b hD hb => ?_, fun solver' hsolver => ?_, ?_⟩
  · apply isWellPosed_residualProgram
    rw [rows_toeplitz, ha.size_coef]
    omega
  · rw [hrun, hrun, raiseDegree_congr hsolver ha hzero bound emax _ hdy hb]
  · obtain ⟨D, best, ⟨houtcome, earlier, ending, hjournal, hending⟩, hlow, hhigh, hbest⟩ :=
      exists_raiseDegree hs ha hzero bound emax (bound - least).toNat hdy hb none
    rw [hpolynomial] at hbest
    refine ⟨D, _, _, best.value, earlier, ending, ?_, hending, by omega, by omega,
      hbest.isLeastSumPair ha hzero hc (by omega) a.symbol⟩
    rw [hrun, Traced.bind_of_ok _ houtcome, hjournal]
    simp

/-- The least degree for the equation `(1 + s) x + y = 1` is one. -/
theorem max_degree_linear :
    max (Poly.ofCoef #[(1 : ℝ), 1] "s").degree (Poly.ofCoef #[(1 : ℝ)] "s").degree = 1 := by
  rw [Poly.degree_linear 1 one_ne_zero, Poly.degree_singleton one_ne_zero]
  rfl

/-- The equation `(1 + s) x + y = 1` has a solution of least absolute sum for a degree from one to
three, and any solver that agrees with the exact one on well-posed programs finds it. -/
theorem leastSumPair_returns_linear :
    exactPrograms.SolvesPrograms ∧ (Poly.ofCoef #[(1 : ℝ), 1] "s").isZero = false ∧
      max (Poly.ofCoef #[(1 : ℝ), 1] "s").degree (Poly.ofCoef #[(1 : ℝ)] "s").degree ≤ 3 ∧
      (∀ (D : ℤ) (b : Array ℝ), 1 ≤ D → b.size = D + 1 →
        (residualProgram (toeplitz (Poly.ofCoef #[1, 1] "s") ((D - 1).toNat + 1)) b).IsWellPosed) ∧
      ∃ D x y value,
        (∀ solver : ProgramSolver ℝ, solver.AgreesWith exactPrograms →
          (leastSumPair solver (Poly.ofCoef #[1, 1] "s") (Poly.ofCoef #[1] "s") 3
            (1 / 10000)).outcome = .ok (x, y, value)) ∧
        1 ≤ D ∧ D ≤ 3 ∧
        IsLeastSumPair (Poly.ofCoef #[1, 1] "s") (Poly.ofCoef #[1] "s") D x y value := by
  have ha := Poly.isOrdinary_ofCoef #[(1 : ℝ), 1] "s"
  have hc := Poly.isOrdinary_ofCoef #[(1 : ℝ)] "s"
  have hzero : (Poly.ofCoef #[(1 : ℝ), 1] "s").isZero = false :=
    Poly.isZero_ofCoef (i := 0) one_ne_zero "s"
  have hbound : max (Poly.ofCoef #[(1 : ℝ), 1] "s").degree (Poly.ofCoef #[(1 : ℝ)] "s").degree ≤
      3 := max_degree_linear.trans_le (by decide)
  obtain ⟨hposed, hcongr, D, x, y, value, earlier, ending, hrun, -, hlow, hhigh, hpair⟩ :=
    leastSumPair_returns exactPrograms_solvesPrograms ha hzero hc hbound (1 / 10000)
  rw [max_degree_linear, Poly.degree_linear 1 one_ne_zero] at hposed
  rw [max_degree_linear] at hlow
  refine ⟨exactPrograms_solvesPrograms, hzero, hbound, hposed, D, x, y, value,
    fun solver hsolver => ?_, hlow, hhigh, hpair⟩
  rw [hcongr solver hsolver, hrun]

end Pair

end PolynomialEquations
