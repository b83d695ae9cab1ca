import PolynomialEquations.Equation.Symmetric
import PolynomialEquations.Proofs.Equation.Diophantine
import PolynomialEquations.Proofs.Poly.Conjugation

/-!
# Equations that correspond to each other

Exchanging the unknowns of `a x + b y = c`, together with the policy, and conjugating all of it
across the imaginary axis both keep the degrees of the unknowns and the lengths of all polynomials.
So they carry the shortest of the pairs that come closest to a solution to the pair of the other
equation, and the check gives the same answer for both.
-/

namespace PolynomialEquations

open Polynomial

variable {K : Type} [RCLike K] {kernels : LinearKernels K}

section Exchange

variable {a b c : Poly K} {w₁ w₂ m : ℕ}

/-- The two policies are mirror images of each other, so exchanging the unknowns of a square system
gives a square system. -/
theorem SquareSystem.exchange (hs : SquareSystem .minX a b c w₁ w₂ m) :
    SquareSystem .minY b a c w₂ w₁ m where
  degreeX_eq := hs.degreeY_eq
  degreeY_eq := hs.degreeX_eq
  equations_eq := hs.equations_eq
  square := (add_comm w₂ w₁).trans hs.square
  left_le := hs.right_le
  right_le := hs.left_le
  rhs_le := hs.rhs_le
  reaches := hs.reaches.symm
  room := (add_comm _ _).trans_le hs.room
  minY_eq _ := hs.minX_eq rfl
  minX_eq h := nomatch h

/-- Exchanging the unknowns exchanges the polynomials of the closest pair. -/
theorem IsLeastPair.swap {A B C : K[X]} {P : K[X] × K[X]} (h : IsLeastPair A B C w₁ w₂ P) :
    IsLeastPair B A C w₂ w₁ P.swap := by
  refine h.image Prod.swap_swap (fun _ => and_comm) (fun Q => ?_) fun Q => ?_
  · rw [misfit, misfit, add_comm, Prod.fst_swap, Prod.snd_swap]
  · rw [pairNorm, pairNorm, add_comm, Prod.fst_swap, Prod.snd_swap]

/-- With exact kernels, exchanging `a` with `b` and the policy for a small `x` with the one for a
small `y` exchanges the unknowns found: both equations fail to be solved, or one pair is the other
one exchanged, up to the symbol, which is that of the first coefficient. -/
theorem diophantinePair_exchange (hk : kernels.SolvesExactly) (ha : a.IsOrdinary)
    (hb : b.IsOrdinary) (hc : c.IsOrdinary) (hazero : a.isZero = false)
    (hbzero : b.isZero = false) (tol : ℝ) :
    ∃ found, (diophantinePair kernels a b c .minX tol).outcome = .ok found ∧
      (diophantinePair kernels b a c .minY tol).outcome =
        .ok (found.map fun pair => (pair.2.withSymbol b.symbol, pair.1.withSymbol b.symbol)) := by
  obtain ⟨w₁, w₂, m, hs⟩ := exists_squareSystem ha hb hc hazero hbzero .minX
  obtain ⟨x, y, hfits, -, -, hpair, hleast⟩ := hs.exists_leastPair hk ha hb hc hazero hbzero
  obtain ⟨y', x', hfits', hsymbol_y, hsymbol_x, hpair', hleast'⟩ :=
    hs.exchange.exists_leastPair hk hb ha hc hbzero hazero
  -- both runs find the one shortest of the closest pairs of the exchanged equation
  obtain ⟨hy, hx⟩ := Prod.mk.inj (hleast.swap.eq hleast')
  refine exists_corresponding_outcomes hpair hpair' (Prod.ext ?_ ?_) ?_
  · rw [← hsymbol_y, hfits.ordinary_snd.withSymbol_eq hfits'.ordinary_fst hy]
  · rw [← hsymbol_x, hfits.ordinary_fst.withSymbol_eq hfits'.ordinary_snd hx]
  · rw [Bool.eq_iff_iff, hfits'.satisfies_iff hb ha hc, hfits.satisfies_iff ha hb hc, ← hx, ← hy,
      add_comm]

/-- The equation for `(1 + s) (2 + s)` and `(1 + s) (3 + s)` with right side `1 + s` has a singular
system. It is solved, and in the other order its solution is the exchanged one. -/
theorem diophantinePair_exchange_singular :
    (exactKernels ℂ).SolvesExactly ∧ (Poly.ofCoef #[(2 : ℂ), 3, 1] "s").isZero = false ∧
      (Poly.ofCoef #[(3 : ℂ), 4, 1] "t").isZero = false ∧
      ∃ x y, (diophantinePair (exactKernels ℂ) (Poly.ofCoef #[2, 3, 1] "s")
          (Poly.ofCoef #[3, 4, 1] "t") (Poly.ofCoef #[1, 1] "s") .minX 0).outcome =
            .ok (some (x, y)) ∧
        (diophantinePair (exactKernels ℂ) (Poly.ofCoef #[3, 4, 1] "t")
          (Poly.ofCoef #[2, 3, 1] "s") (Poly.ofCoef #[1, 1] "s") .minY 0).outcome =
            .ok (some (y.withSymbol "t", x.withSymbol "t")) := by
  have ha := Poly.isZero_ofCoef (c := #[(2 : ℂ), 3, 1]) (i := 0) (by simp) "s"
  have hb := Poly.isZero_ofCoef (c := #[(3 : ℂ), 4, 1]) (i := 0) (by simp) "t"
  have ha' := Poly.isOrdinary_ofCoef #[(2 : ℂ), 3, 1] "s"
  have hb' := Poly.isOrdinary_ofCoef #[(3 : ℂ), 4, 1] "t"
  have hc' := Poly.isOrdinary_ofCoef #[(1 : ℂ), 1] "s"
  obtain ⟨w₁, w₂, m, hs⟩ := exists_squareSystem ha' hb' hc' ha hb .minX
  obtain ⟨x, y, -, hsolved, -⟩ := hs.exists_solution exactKernels_solvesExactly ha' hb' hc' ha hb
    le_rfl (gcd_dvd_common_factor _ _ _)
  obtain ⟨found, hfound, hexchanged⟩ :=
    diophantinePair_exchange exactKernels_solvesExactly ha' hb' hc' ha hb 0
  obtain rfl := Except.ok.inj (hsolved.symm.trans hfound)
  rw [Poly.symbol_ofCoef] at hexchanged
  exact ⟨exactKernels_solvesExactly, ha, hb, x, y, hsolved, hexchanged⟩

end Exchange

section Conjugation

variable {a b c d : Poly K} {policy : DegreePolicy} {w₁ w₂ m : ℕ}

theorem coefficientNorm_axisConjugate (p : K[X]) :
    coefficientNorm (axisConjugate p) = coefficientNorm p :=
  coefficientNorm_congr (norm_coeff_axisConjugate p)

theorem supNorm_axisConjugate (p : K[X]) : (axisConjugate p).supNorm = p.supNorm := by
  rw [supNorm_eq_iSup, supNorm_eq_iSup]
  exact iSup_congr (norm_coeff_axisConjugate p)

/-- Conjugating an equation conjugates the polynomials of the closest pair. -/
theorem IsLeastPair.axisConjugate {A B C : K[X]} {P : K[X] × K[X]}
    (h : IsLeastPair A B C w₁ w₂ P) :
    IsLeastPair (axisConjugate A) (axisConjugate B) (axisConjugate C) w₁ w₂
      (P.map axisConjugate axisConjugate) := by
  refine h.image (fun Q => ?_) (fun Q => ?_) (fun Q => ?_) fun Q => ?_
  · rw [Prod.map_map]
    exact Prod.ext (axisConjugate_axisConjugate _) (axisConjugate_axisConjugate _)
  · rw [FitsWidths, FitsWidths, Prod.map_fst, Prod.map_snd, degree_axisConjugate,
      degree_axisConjugate]
  · rw [misfit, misfit, Prod.map_fst, Prod.map_snd, ← map_mul, ← map_mul, ← map_add, ← map_sub,
      coefficientNorm_axisConjugate]
  · rw [pairNorm, pairNorm, Prod.map_fst, Prod.map_snd, coefficientNorm_axisConjugate,
      coefficientNorm_axisConjugate]

/-- With exact kernels the equation with all data conjugated gives the conjugated answer. -/
theorem exists_conjugate_outcomes (hk : kernels.SolvesExactly) {c' : Poly K} (ha : a.IsOrdinary)
    (hb : b.IsOrdinary) (hc : c.IsOrdinary) (hc' : c'.IsOrdinary) (hazero : a.isZero = false)
    (hbzero : b.isZero = false)
    (hright : c'.toPolynomial = axisConjugate c.toPolynomial) (tol : ℝ) :
    ∃ found, (diophantinePair kernels a b c policy tol).outcome = .ok found ∧
      (diophantinePair kernels a.axisConj b.axisConj c' policy tol).outcome =
        .ok (found.map fun pair => (pair.1.axisConj, pair.2.axisConj)) := by
  have ha' := Poly.isOrdinary_axisConj ha.variant_eq
  have hb' := Poly.isOrdinary_axisConj hb.variant_eq
  have hA := Poly.toPolynomial_axisConj ha.variant_eq
  have hB := Poly.toPolynomial_axisConj hb.variant_eq
  have hazero' := (Poly.isZero_axisConj ha.variant_eq).trans hazero
  have hbzero' := (Poly.isZero_axisConj hb.variant_eq).trans hbzero
  obtain ⟨w₁, w₂, m, hs⟩ := exists_squareSystem ha hb hc hazero hbzero policy
  obtain ⟨w₁', w₂', m', hs'⟩ := exists_squareSystem ha' hb' hc' hazero' hbzero' policy
  have hdegree : c'.degree = c.degree := hc'.degree_congr hc (by rw [hright, degree_axisConjugate])
  obtain ⟨rfl, rfl⟩ := hs.widths_eq hs' ha.degree_axisConj hb.degree_axisConj hdegree
  obtain ⟨x, y, hfits, hsymbol_x, hsymbol_y, hpair, hleast⟩ :=
    hs.exists_leastPair hk ha hb hc hazero hbzero
  obtain ⟨x', y', hfits', hsymbol_x', hsymbol_y', hpair', hleast'⟩ :=
    hs'.exists_leastPair hk ha' hb' hc' hazero' hbzero'
  rw [hA, hB, hright] at hleast'
  rw [Poly.symbol_axisConj] at hsymbol_x' hsymbol_y'
  obtain ⟨hx, hy⟩ := Prod.mk.inj (hleast.axisConjugate.eq hleast')
  refine exists_corresponding_outcomes hpair hpair' (Prod.ext ?_ ?_) ?_
  · exact hfits.ordinary_fst.axisConj_eq hfits'.ordinary_fst (hsymbol_x.trans hsymbol_x'.symm) hx
  · exact hfits.ordinary_snd.axisConj_eq hfits'.ordinary_snd (hsymbol_y.trans hsymbol_y'.symm) hy
  · rw [Bool.eq_iff_iff, hfits'.satisfies_iff ha' hb' hc', hfits.satisfies_iff ha hb hc, ← hx, ← hy,
      hA, hB, hright, ← map_mul, ← map_mul, ← map_add, ← map_sub, supNorm_axisConjugate,
      supNorm_axisConjugate]

/-- With exact kernels the equation `ã x + b̃ y = c + d̃` and the equation `a x + b y = c̃ + d` are
solved together, and the solution of the one is the conjugate of that of the other. -/
theorem symmetricPair_conjugates (hk : kernels.SolvesExactly) (ha : a.IsOrdinary)
    (hb : b.IsOrdinary) (hc : c.IsOrdinary) (hd : d.IsOrdinary) (hazero : a.isZero = false)
    (hbzero : b.isZero = false) (policy : DegreePolicy) (tol : ℝ) :
    ∃ found, (diophantinePair kernels a b (c.axisConj + d) policy tol).outcome = .ok found ∧
      (symmetricPair kernels a b c d policy tol).outcome =
        .ok (found.map fun pair => (pair.1.axisConj, pair.2.axisConj)) := by
  have hc' := Poly.isOrdinary_axisConj hc.variant_eq
  have hd' := Poly.isOrdinary_axisConj hd.variant_eq
  refine exists_conjugate_outcomes hk ha hb (Poly.isOrdinary_add hc'.variant_eq hd.variant_eq)
    (Poly.isOrdinary_add hc.variant_eq hd'.variant_eq) hazero hbzero ?_ tol
  rw [Poly.toPolynomial_add hc.variant_eq hd'.variant_eq,
    Poly.toPolynomial_add hc'.variant_eq hd.variant_eq, Poly.toPolynomial_axisConj hc.variant_eq,
    Poly.toPolynomial_axisConj hd.variant_eq, map_add, axisConjugate_axisConjugate]

/-- The equation for `1 + i s` and `2 i` with right side `s̃ + i` has a solution, and the symmetric
one for `s` and `i` the conjugate one; the unknown that is kept small has no column. -/
theorem symmetricPair_conjugates_imaginary :
    (exactKernels ℂ).SolvesExactly ∧
      (Poly.ofCoef #[1, Complex.I] "s").isZero = false ∧
      (Poly.ofCoef #[2 * Complex.I] "s").isZero = false ∧
      ∃ x y, (diophantinePair (exactKernels ℂ) (Poly.ofCoef #[1, Complex.I] "s")
          (Poly.ofCoef #[2 * Complex.I] "s")
          ((Poly.ofCoef #[0, 1] "s").axisConj + Poly.ofCoef #[Complex.I] "s") .minX 0).outcome =
            .ok (some (x, y)) ∧
        (symmetricPair (exactKernels ℂ) (Poly.ofCoef #[1, Complex.I] "s")
          (Poly.ofCoef #[2 * Complex.I] "s") (Poly.ofCoef #[0, 1] "s")
          (Poly.ofCoef #[Complex.I] "s") .minX 0).outcome =
            .ok (some (x.axisConj, y.axisConj)) := by
  have ha := Poly.isZero_ofCoef (c := #[1, Complex.I]) (i := 0) (by simp) "s"
  have hb := Poly.isZero_ofCoef (c := #[2 * Complex.I]) (i := 0) (by simp) "s"
  have ha' := Poly.isOrdinary_ofCoef #[1, Complex.I] "s"
  have hb' := Poly.isOrdinary_ofCoef #[2 * Complex.I] "s"
  have hc' := Poly.isOrdinary_ofCoef #[(0 : ℂ), 1] "s"
  have hd' := Poly.isOrdinary_ofCoef #[Complex.I] "s"
  have hright' := Poly.isOrdinary_add (Poly.isOrdinary_axisConj hc'.variant_eq).variant_eq
    hd'.variant_eq
  -- the second coefficient divides every polynomial
  have hunit : IsUnit (Poly.ofCoef #[2 * Complex.I] "s").toPolynomial := by
    rw [Poly.toPolynomial_ofCoef, vectorPolynomial_singleton, isUnit_C]
    simp
  obtain ⟨w₁, w₂, m, hs⟩ := exists_squareSystem ha' hb' hright' ha hb .minX
  obtain ⟨x, y, -, hsolved, -⟩ := hs.exists_solution exactKernels_solvesExactly ha' hb' hright' ha
    hb le_rfl ((EuclideanDomain.gcd_dvd_right _ _).trans hunit.dvd)
  obtain ⟨found, hfound, hconjugated⟩ :=
    symmetricPair_conjugates exactKernels_solvesExactly ha' hb' hc' hd' ha hb .minX 0
  obtain rfl := Except.ok.inj (hsolved.symm.trans hfound)
  exact ⟨exactKernels_solvesExactly, ha, hb, x, y, hsolved, hconjugated⟩

end Conjugation

end PolynomialEquations
