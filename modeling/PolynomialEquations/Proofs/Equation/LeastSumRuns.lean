import PolynomialEquations.Proofs.Equation.LeastSum

/-!
# Runs for the least absolute sum compared

The optimum for a degree is a number that belongs to the equation, so two runs for one equation meet
the same numbers, and differ only in where they end. A run with a higher bound and a smaller
threshold does not end earlier. It ends at the same degree if only the bound differs and the first
run did not end because of its bound.
-/

namespace PolynomialEquations

open Polynomial

variable {solver solver' : ProgramSolver ℝ} {a c : Poly ℝ} {bound bound' : ℤ} {emax emax' : ℝ}

section Ends

variable {settles settles' : ℕ → Prop} {first last last' D D' : ℕ}

/-- A search for a stronger property up to a later degree does not end earlier. -/
theorem EndsAt.le_of_imp (h : EndsAt settles first last D) (h' : EndsAt settles' first last' D')
    (himp : ∀ d, settles' d → settles d) (hlast : last ≤ last') : D ≤ D' := by
  by_contra hlt
  rcases h'.settles_or_last with hsettles | heq
  · exact h.not_before D' h'.first_le (not_le.mp hlt) (himp D' hsettles)
  · have hle := h.le_last
    omega

/-- Where a search ends with the property, a search up to a later degree ends as well. -/
theorem EndsAt.eq_of_settles (h : EndsAt settles first last D) (h' : EndsAt settles first last' D')
    (hlast : last ≤ last') (hsettles : settles D) : D' = D := by
  apply le_antisymm
  · by_contra hlt
    exact h'.not_before D h.first_le (not_le.mp hlt) hsettles
  · exact h.le_of_imp h' (fun _ => id) hlast

/-- An optimum that settles for a threshold settles for every larger one. -/
theorem Settles.mono {previous : Option ℝ} {optimum : ℕ → ℝ} {d : ℕ} (hemax : emax' ≤ emax)
    (h : Settles previous optimum emax' first d) : Settles previous optimum emax first d := by
  unfold Settles at h ⊢
  cases hpreceding : precedingOptimum previous optimum first d with
  | none =>
    rw [hpreceding] at h
    exact h
  | some p =>
    rw [hpreceding] at h
    exact decide_eq_true ((of_decide_eq_true h).trans_le hemax)

end Ends

section Runs

/-- For a bound that is high enough the run is a search over the degrees from the least one to the
bound, and its solution made into polynomials. -/
theorem exists_isSearch_leastSumPair (hs : solver.SolvesPrograms) (ha : a.IsOrdinary)
    (hzero : a.isZero = false) (hc : c.IsOrdinary) (hbound : max a.degree c.degree ≤ bound)
    (emax : ℝ) :
    ∃ D best run, IsLeastSum a.toPolynomial c.toPolynomial D best ∧
      IsSearch run none (leastAbsoluteSum a.toPolynomial c.toPolynomial) a.degree bound emax
        (leastDegree a c).toNat bound.toNat D best ∧
      leastSumPair solver a c bound emax = ⟨run.journal,
        .ok (Poly.ofCoef best.x a.symbol, Poly.ofCoef best.y a.symbol, best.value)⟩ := by
  obtain ⟨least, b, hleast, hdy, hb, hpolynomial, hpair⟩ :=
    exists_leastSumPair_eq ha hzero hc hbound
  have hmax : max a.degree c.degree = least := hleast
  obtain ⟨D, best, hbest, hrun⟩ := exists_isSearch hs ha hzero bound emax (bound - least).toNat hdy
    hb hpolynomial none
  have hlast : least + (bound - least).toNat = bound.toNat := by omega
  rw [hlast] at hrun
  rw [hleast, Int.toNat_natCast]
  refine ⟨D, best, _, hbest, hrun, ?_⟩
  rw [hpair, Traced.bind_of_ok _ hrun.outcome_eq]
  simp

/-- The run tries the degrees from the least one to `D`, at most the bound. It meets values there
that never increase, and returns the last of them, which is at most the absolute sum of `c`. -/
structure IsDescent (run : Traced ℝ (Poly ℝ × Poly ℝ × ℝ)) (a c : Poly ℝ) (bound : ℤ)
    (values : ℕ → ℝ) (D : ℕ) : Prop where
  /-- The end is not before the least degree. -/
  first_le : (leastDegree a c).toNat ≤ D
  /-- The end is not behind the bound. -/
  le_bound : D ≤ bound
  /-- The journal holds the value for each degree, and at most the note that the bound was
  reached. -/
  journal_eq : ∃ ending,
    run.journal = searchJournal values a.degree (leastDegree a c).toNat D ++ ending ∧
      (ending = [] ∨ ending = [.boundReached bound])
  /-- The values do not increase. -/
  antitone : Antitone values
  /-- The value for the last degree is returned. -/
  outcome_eq : ∃ x y, run.outcome = .ok (x, y, values D)
  /-- The value returned is the least one that was met. -/
  least : ∀ value dx dy, Event.optimum value dx dy ∈ run.journal → values D ≤ value
  /-- The value is at most what the unknown zero leaves. -/
  le_absoluteSum : values D ≤ absoluteSum c.toPolynomial

/-- The values in the journal of a search are the optima for its degrees. -/
theorem eq_of_optimum_mem_searchJournal {optimum : ℕ → ℝ} {da dx dy : ℤ} {first D : ℕ} {value : ℝ}
    (h : Event.optimum value dx dy ∈ searchJournal optimum da first D) :
    ∃ d, first ≤ d ∧ d ≤ D ∧ value = optimum d := by
  rw [searchJournal, List.mem_map] at h
  obtain ⟨d, hd, heq⟩ := h
  rw [List.mem_range'_1] at hd
  injection heq with hvalue
  exact ⟨d, by omega, by omega, hvalue.symm⟩

/-- A search for the least absolute sum meets values that do not increase. -/
theorem IsSearch.isDescent {search : Traced ℝ (LeastSum ℝ)} {D : ℕ} {best : LeastSum ℝ}
    {run : Traced ℝ (Poly ℝ × Poly ℝ × ℝ)} {x y : Poly ℝ}
    (h : IsSearch search none (leastAbsoluteSum a.toPolynomial c.toPolynomial) a.degree bound emax
      (leastDegree a c).toNat bound.toNat D best)
    (hbest : IsLeastSum a.toPolynomial c.toPolynomial D best)
    (hrun : run = ⟨search.journal, .ok (x, y, best.value)⟩) (hbound : 0 ≤ bound) :
    IsDescent run a c bound (leastAbsoluteSum a.toPolynomial c.toPolynomial) D := by
  obtain ⟨ending, hjournal, hending⟩ := h.journal_eq
  have hlast := h.endsAt.le_last
  have hending' : ending = [] ∨ ending = [.boundReached bound] := hending.imp And.right And.right
  constructor
  case first_le => exact h.endsAt.first_le
  case le_bound => omega
  case journal_eq => exact ⟨ending, by rw [hrun, hjournal], hending'⟩
  case antitone => exact leastAbsoluteSum_antitone _ _
  case outcome_eq => exact ⟨x, y, by rw [hrun, hbest.value_eq_leastAbsoluteSum]⟩
  case least =>
    intro value dx dy hmem
    rw [hrun, hjournal, List.mem_append] at hmem
    rcases hmem with hmem | hmem
    · obtain ⟨d, -, hd, rfl⟩ := eq_of_optimum_mem_searchJournal hmem
      exact leastAbsoluteSum_antitone _ _ hd
    · rcases hending' with rfl | rfl <;> simp at hmem
  case le_absoluteSum => exact leastAbsoluteSum_le_absoluteSum _ _ _

/-- Runs for one equation meet the least absolute sums for its degrees, which never increase. With a
higher bound and a smaller threshold the value returned is no larger. It is the same, for the same
degree, if only the bound differs and the first run ended before its bound. -/
theorem leastSumPair_descends (hs : solver.SolvesPrograms) (hs' : solver'.SolvesPrograms)
    (ha : a.IsOrdinary) (hzero : a.isZero = false) (hc : c.IsOrdinary)
    (hbound : max a.degree c.degree ≤ bound) (hbound' : bound ≤ bound') (hemax : emax' ≤ emax) :
    let values := leastAbsoluteSum a.toPolynomial c.toPolynomial
    ∃ D D',
      IsDescent (leastSumPair solver a c bound emax) a c bound values D ∧
      IsDescent (leastSumPair solver' a c bound' emax') a c bound' values D' ∧
      values D' ≤ values D ∧
      (emax' = emax → D < bound → D' = D ∧ values D' = values D) := by
  intro values
  obtain ⟨D, best, search, hbest, hsearch, hrun⟩ :=
    exists_isSearch_leastSumPair hs ha hzero hc hbound emax
  obtain ⟨D', best', search', hbest', hsearch', hrun'⟩ :=
    exists_isSearch_leastSumPair hs' ha hzero hc (hbound.trans hbound') emax'
  have hdegree := ha.degree_eq hzero
  have hlast : bound.toNat ≤ bound'.toNat := Int.toNat_le_toNat hbound'
  have hle : D ≤ D' :=
    hsearch.endsAt.le_of_imp hsearch'.endsAt (fun _ => Settles.mono hemax) hlast
  refine ⟨D, D', hsearch.isDescent hbest hrun (by omega),
    hsearch'.isDescent hbest' hrun' (by omega), leastAbsoluteSum_antitone _ _ hle, ?_⟩
  rintro rfl hlt
  have hsettles := hsearch.endsAt.settles_or_last.resolve_right (by omega)
  have heq := hsearch.endsAt.eq_of_settles hsearch'.endsAt hlast hsettles
  exact ⟨heq, by rw [heq]⟩

/-- For the equation `(1 + s) x + y = 1` the bound five does not give a larger value than the bound
three, and the same value if the search ends before degree three. -/
theorem leastSumPair_descends_linear :
    exactPrograms.SolvesPrograms ∧ (Poly.ofCoef #[(1 : ℝ), 1] "s").IsOrdinary ∧
      (Poly.ofCoef #[(1 : ℝ), 1] "s").isZero = false ∧ (Poly.ofCoef #[(1 : ℝ)] "s").IsOrdinary ∧
      max (Poly.ofCoef #[(1 : ℝ), 1] "s").degree (Poly.ofCoef #[(1 : ℝ)] "s").degree ≤ 3 ∧
      let values := leastAbsoluteSum (Poly.ofCoef #[1, 1] "s").toPolynomial
        (Poly.ofCoef #[1] "s").toPolynomial
      ∃ D D',
        IsDescent (leastSumPair exactPrograms (Poly.ofCoef #[1, 1] "s") (Poly.ofCoef #[1] "s") 3
          (1 / 100)) (Poly.ofCoef #[1, 1] "s") (Poly.ofCoef #[1] "s") 3 values D ∧
        IsDescent (leastSumPair exactPrograms (Poly.ofCoef #[1, 1] "s") (Poly.ofCoef #[1] "s") 5
          (1 / 100)) (Poly.ofCoef #[1, 1] "s") (Poly.ofCoef #[1] "s") 5 values D' ∧
        values D' ≤ values D ∧ ((D : ℤ) < 3 → D' = D ∧ values D' = values D) := by
  have ha := Poly.isOrdinary_ofCoef #[(1 : ℝ), 1] "s"
  have hc := Poly.isOrdinary_ofCoef #[(1 : ℝ)] "s"
  have hzero : (Poly.ofCoef #[(1 : ℝ), 1] "s").isZero = false :=
    Poly.isZero_ofCoef (i := 0) one_ne_zero "s"
  have hbound : max (Poly.ofCoef #[(1 : ℝ), 1] "s").degree (Poly.ofCoef #[(1 : ℝ)] "s").degree ≤
      3 := max_degree_linear.trans_le (by decide)
  obtain ⟨D, D', hrun, hrun', hle, heq⟩ :=
    leastSumPair_descends exactPrograms_solvesPrograms exactPrograms_solvesPrograms ha hzero hc
      hbound (show (3 : ℤ) ≤ 5 by decide) (le_refl (1 / 100 : ℝ))
  exact ⟨exactPrograms_solvesPrograms, ha, hzero, hc, hbound, D, D', hrun, hrun', hle, heq rfl⟩

end Runs

end PolynomialEquations
