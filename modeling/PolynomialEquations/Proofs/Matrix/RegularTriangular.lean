import PolynomialEquations.Proofs.Matrix.SingularTriangular
import Mathlib.Analysis.Matrix.Normed

/-!
# Back substitution in a regular system

Back substitution looks at every pivot before it divides by it, so a negligible pivot anywhere on
the diagonal ends it with one of the two reports, whatever the right side is. Without a negligible
pivot all pivots are other than zero, every row is substituted, and the result is the only solution.
Each column of a right side is then solved on its own.
-/

namespace PolynomialEquations

open scoped Matrix.Norms.Operator

variable {K : Type} [RCLike K] {U C : Mat K} {n : ℕ}

section Pivots

/-- A square matrix of size `n` with nothing below the diagonal. -/
structure Mat.IsUpperTriangular (U : Mat K) (n : ℕ) : Prop where
  /-- The matrix is square. -/
  rows_eq : U.rows = n
  /-- The matrix is square. -/
  cols_eq : U.cols = n
  /-- There is nothing below the diagonal. -/
  upper : ∀ i < n, ∀ k < i, U.get i k = 0

/-- Some pivot is negligible relative to the norm of the matrix, the largest sum of moduli along a
row. -/
def HasNegligiblePivot (U : Mat K) (n : ℕ) : Prop :=
  ∃ i : Fin n, ‖U.toMatrix n n i i‖ ≤ 1e-12 * ‖U.toMatrix n n‖

/-- The row sum norm of a stored matrix is the norm of the matrix. -/
theorem Mat.rowSumNorm_eq_norm {m : ℕ} (hrows : U.rows = m) (hcols : U.cols = n) :
    (U.rowSumNorm : ℝ) = ‖U.toMatrix m n‖ := by
  subst hrows hcols
  have hsum : ∀ i : Fin U.rows, ((∑ j, ‖U.toMatrix U.rows U.cols i j‖₊ : NNReal) : ℝ) =
      ∑ j ∈ Finset.range U.cols, ‖U.get i j‖ := by
    intro i
    rw [NNReal.coe_sum, ← Fin.sum_univ_eq_sum_range (fun j => ‖U.get i j‖)]
    rfl
  refine eq_of_forall_ge_iff fun B => ?_
  rw [rowSumNorm_le_iff, Matrix.linfty_opNorm_def]
  constructor
  · rintro ⟨hB, hrow⟩
    lift B to NNReal using hB
    rw [NNReal.coe_le_coe, Finset.sup_le_iff]
    intro i _
    rw [← NNReal.coe_le_coe, hsum]
    exact hrow i i.isLt
  · intro hle
    refine ⟨(NNReal.coe_nonneg _).trans hle, fun i hi => ?_⟩
    rw [← hsum ⟨i, hi⟩]
    exact (NNReal.coe_le_coe.mpr (Finset.le_sup (f := fun i => ∑ j, ‖U.toMatrix U.rows U.cols i j‖₊)
      (Finset.mem_univ (⟨i, hi⟩ : Fin U.rows)))).trans hle

namespace Mat.IsUpperTriangular

/-- A pivot is negligible exactly when it does not exceed the tolerance. -/
theorem hasNegligiblePivot_iff (h : U.IsUpperTriangular n) :
    HasNegligiblePivot U n ↔ ∃ r < n, ‖U.get r r‖ ≤ (U.tolerance : ℝ) := by
  have htolerance : ∀ r < n, (U.tolerance : ℝ) = 1e-12 * ‖U.toMatrix n n‖ := by
    intro r hr
    have hentries : U.rows * U.cols ≠ 0 := by
      rw [h.rows_eq, h.cols_eq]
      exact Nat.mul_ne_zero (by omega) (by omega)
    rw [tolerance, if_neg hentries, rowSumNorm_eq_norm h.rows_eq h.cols_eq, negligible]
  constructor
  · rintro ⟨i, hi⟩
    exact ⟨i, i.isLt, hi.trans_eq (htolerance i i.isLt).symm⟩
  · rintro ⟨r, hr, hle⟩
    exact ⟨⟨r, hr⟩, hle.trans_eq (htolerance r hr)⟩

/-- Without a negligible pivot all pivots exceed the tolerance. -/
theorem tolerance_lt (h : U.IsUpperTriangular n) (hregular : ¬HasNegligiblePivot U n) :
    ∀ r < n, (U.tolerance : ℝ) < ‖U.get r r‖ := by
  intro r hr
  rw [← not_le]
  exact fun hle => hregular (h.hasNegligiblePivot_iff.mpr ⟨r, hr, hle⟩)

end Mat.IsUpperTriangular

end Pivots

section Reports

/-- The computation reports that a system is singular. -/
def ReportsSingular {α : Type} (x : Except Failure α) : Prop :=
  x = .error .inconsistent ∨ x = .error .rankDeficient

/-- A computation that reports under a condition and has a result otherwise reports exactly under
the condition. -/
theorem reportsSingular_iff {α : Type} {x : Except Failure α} {p : Prop}
    (hreport : p → ReportsSingular x) (hresult : ¬p → ∃ y, x = .ok y) : ReportsSingular x ↔ p := by
  refine ⟨fun h => ?_, hreport⟩
  by_contra hp
  obtain ⟨y, rfl⟩ := hresult hp
  rcases h with h | h <;> cases h

/-- What follows a report is not carried out. -/
theorem ReportsSingular.bind {α β : Type} {x : Except Failure α} (h : ReportsSingular x)
    (f : α → Except Failure β) : ReportsSingular (x >>= f) := by
  rcases h with rfl | rfl
  · exact Or.inl rfl
  · exact Or.inr rfl

/-- A negligible pivot in one of the rows still to be substituted is reported. -/
theorem substituteRows_reportsSingular (hrows : U.rows = n) (hcols : U.cols = n) {tol : ℝ} {m : ℕ}
    (hpivot : ∃ r < m, ‖U.get r r‖ ≤ tol) {below : List (Array K)}
    (hlength : m + below.length = n) : ReportsSingular (substituteRows U C tol m below) := by
  induction m generalizing below with
  | zero =>
    obtain ⟨r, hr, -⟩ := hpivot
    exact absurd hr (Nat.not_lt_zero r)
  | succ m ih =>
    rw [substituteRows, if_neg (by omega), scalar_modulus]
    by_cases hsmall : ‖U.get m m‖ ≤ tol
    · rw [if_pos hsmall]
      split
      · exact Or.inl rfl
      · exact Or.inr rfl
    · -- the pivot of this row is not the one, so one further up is
      obtain ⟨r, hr, hle⟩ := hpivot
      have hne : r ≠ m := by
        rintro rfl
        exact hsmall hle
      rw [if_neg hsmall, if_neg (by omega)]
      exact ih ⟨r, by omega, hle⟩ (by rw [List.length_cons]; omega)

/-- A negligible pivot is reported for every right side. -/
theorem Mat.IsUpperTriangular.reportsSingular (h : U.IsUpperTriangular n) (hC : C.rows = n)
    (hpivot : HasNegligiblePivot U n) : ReportsSingular (backSubstitute (R := ℝ) U C) := by
  refine ReportsSingular.bind ?_ _
  rw [hC]
  exact substituteRows_reportsSingular h.rows_eq h.cols_eq (h.hasNegligiblePivot_iff.mp hpivot) rfl

/-- A negligible pivot is reported for every right side that is a vector. -/
theorem Mat.IsUpperTriangular.reportsSingular_vector (h : U.IsUpperTriangular n) {c : Array K}
    (hc : c.size = n) (hpivot : HasNegligiblePivot U n) :
    ReportsSingular (backSubstituteVector (R := ℝ) U c) :=
  (h.reportsSingular (C := Mat.ofColumn c) hc hpivot).bind _

end Reports

section Solutions

/-- A column of a solution is a solution for that column of the right side. -/
theorem Mat.mulVec_col {X : Mat K} {k : ℕ} (hrows : U.rows = n) (hcols : U.cols = n)
    (hX : X.rows = n) (hC : C.rows = n)
    (h : U.toMatrix n n * X.toMatrix n k = C.toMatrix n k) {j : ℕ} (hj : j < k) :
    U.mulVec (X.col j) = C.col j := by
  refine eq_of_coordinates_eq ((size_mulVec U _).trans hrows) ((size_col C j).trans hC) ?_
  have hread : ∀ {A : Mat K}, A.rows = n →
      coordinates n (A.col j) = fun i => A.toMatrix n k i ⟨j, hj⟩ := by
    intro A hA
    funext i
    rw [coordinates_apply, getD_col, if_pos (i.isLt.trans_eq hA.symm)]
    rfl
  rw [coordinates_mulVec_of_eq hrows hcols, hread hX, hread hC, ← h]
  rfl

namespace Mat.IsUpperTriangular

/-- Without a negligible pivot a vector is solved for, and there is no other solution. -/
theorem exists_unique_vector (h : U.IsUpperTriangular n) (hregular : ¬HasNegligiblePivot U n)
    {c : Array K} (hc : c.size = n) :
    ∃ x, backSubstituteVector (R := ℝ) U c = .ok x ∧ x.size = n ∧ U.mulVec x = c ∧
      ∀ u : Array K, u.size = n → U.mulVec u = c → u = x := by
  have hsolvable : ∀ y : Array K, y.size = n → ∃ x,
      backSubstituteVector (R := ℝ) U y = .ok x ∧ x.size = n ∧ U.mulVec x = y := fun y hy =>
    exists_backSubstituteVector h.rows_eq h.cols_eq hy (h.tolerance_lt hregular) h.upper
  obtain ⟨x, hok, hx, hUx⟩ := hsolvable c hc
  refine ⟨x, hok, hx, hUx, fun u hu hUu => ?_⟩
  exact PolynomialEquations.eq_of_mulVec_eq h.rows_eq h.cols_eq
    (fun y hy => (hsolvable y hy).imp fun _ hz => hz.2) hu hx (hUu.trans hUx.symm)

/-- Without a negligible pivot the determinant is not zero. -/
theorem det_ne_zero (h : U.IsUpperTriangular n) (hregular : ¬HasNegligiblePivot U n) :
    (U.toMatrix n n).det ≠ 0 := by
  have hupper : (U.toMatrix n n).IsUpperTriangular := fun i k hki => h.upper i i.isLt k hki
  rw [Matrix.det_of_isUpperTriangular hupper, Finset.prod_ne_zero_iff]
  intro i _
  exact norm_pos_iff.mp (U.tolerance_nonneg.trans_lt (h.tolerance_lt hregular i i.isLt))

/-- Without a negligible pivot all columns of a right side are solved for together, and there is no
other solution. -/
theorem exists_solutions_eq (h : U.IsUpperTriangular n) (hregular : ¬HasNegligiblePivot U n)
    (hC : C.rows = n) :
    ∃ X, backSubstitute (R := ℝ) U C = .ok X ∧ X.rows = n ∧ X.cols = C.cols ∧
      U.solutions C n = {X.toMatrix n C.cols} := by
  obtain ⟨X, hok, hXrows, hXcols, hsum⟩ :=
    exists_backSubstitute h.rows_eq h.cols_eq hC (h.tolerance_lt hregular) h.upper
  have hsolves : U.toMatrix n n * X.toMatrix n C.cols = C.toMatrix n C.cols := by
    ext i c
    rw [Matrix.mul_apply, Mat.toMatrix_apply, ← hsum i i.isLt c c.isLt,
      ← Fin.sum_univ_eq_sum_range (fun k => U.get i k * X.get k c)]
    rfl
  refine ⟨X, hok, hXrows, hXcols, Set.eq_singleton_iff_unique_mem.mpr ⟨hsolves, fun Y hY => ?_⟩⟩
  have hunit := isUnit_iff_ne_zero.mpr (h.det_ne_zero hregular)
  exact Matrix.mul_right_injective_of_inv _ _ (Matrix.nonsing_inv_mul _ hunit)
    (hY.trans hsolves.symm)

/-- A column of the result for several columns is the result for that column. -/
theorem backSubstituteVector_col (h : U.IsUpperTriangular n) (hregular : ¬HasNegligiblePivot U n)
    (hC : C.rows = n) {X : Mat K} (hX : X.rows = n)
    (hsolves : X.toMatrix n C.cols ∈ U.solutions C n) {j : ℕ} (hj : j < C.cols) :
    backSubstituteVector (R := ℝ) U (C.col j) = .ok (X.col j) := by
  have hcol : U.mulVec (X.col j) = C.col j := mulVec_col h.rows_eq h.cols_eq hX hC hsolves hj
  obtain ⟨x, hok, -, -, hunique⟩ :=
    h.exists_unique_vector hregular ((size_col C j).trans hC)
  rw [hok, hunique (X.col j) ((size_col X j).trans hX) hcol]

end Mat.IsUpperTriangular

/-- Back substitution with an upper triangular matrix reports a singular system exactly when a pivot
is negligible. Otherwise it returns the only solution, for a right side of any number of columns and
for a vector, and each column of the solution is what it returns for that column of the right
side. -/
theorem backSubstitute_regular (h : U.IsUpperTriangular n) :
    (∀ C : Mat K, C.rows = n →
      (ReportsSingular (backSubstitute (R := ℝ) U C) ↔ HasNegligiblePivot U n) ∧
      (¬HasNegligiblePivot U n → ∃ X, backSubstitute (R := ℝ) U C = .ok X ∧ X.rows = n ∧
        X.cols = C.cols ∧ U.solutions C n = {X.toMatrix n C.cols} ∧
        ∀ j < C.cols, backSubstituteVector (R := ℝ) U (C.col j) = .ok (X.col j))) ∧
    ∀ c : Array K, c.size = n →
      (ReportsSingular (backSubstituteVector (R := ℝ) U c) ↔ HasNegligiblePivot U n) ∧
      (¬HasNegligiblePivot U n → ∃ x, backSubstituteVector (R := ℝ) U c = .ok x ∧ x.size = n ∧
        U.mulVec x = c ∧ ∀ u : Array K, u.size = n → U.mulVec u = c → u = x) := by
  refine ⟨fun C hC => ⟨?_, fun hregular => ?_⟩,
    fun c hc => ⟨?_, fun hregular => h.exists_unique_vector hregular hc⟩⟩
  · exact reportsSingular_iff (h.reportsSingular hC) fun hregular =>
      (h.exists_solutions_eq hregular hC).imp fun _ hX => hX.1
  · obtain ⟨X, hok, hrows, hcols, hsolutions⟩ := h.exists_solutions_eq hregular hC
    refine ⟨X, hok, hrows, hcols, hsolutions, fun j hj => ?_⟩
    exact h.backSubstituteVector_col hregular hC hrows
      (hsolutions.symm ▸ Set.mem_singleton _) hj
  · exact reportsSingular_iff (h.reportsSingular_vector hc) fun hregular =>
      (h.exists_unique_vector hregular hc).imp fun _ hx => hx.1

/-- The equations `x + 2 y = 1` and `y = 1` have the only solution `x = -1`, `y = 1`, also as the
one column of a right side. With `0` for the last pivot they are reported as singular. -/
theorem backSubstitute_regular_two :
    (⟨2, 2, #[1, 2, 0, 1]⟩ : Mat ℝ).IsUpperTriangular 2 ∧
      ¬HasNegligiblePivot (⟨2, 2, #[1, 2, 0, 1]⟩ : Mat ℝ) 2 ∧
      backSubstituteVector (R := ℝ) (⟨2, 2, #[1, 2, 0, 1]⟩ : Mat ℝ) #[1, 1] = .ok #[-1, 1] ∧
      (∃ X, backSubstitute (R := ℝ) (⟨2, 2, #[1, 2, 0, 1]⟩ : Mat ℝ) ⟨2, 1, #[1, 1]⟩ = .ok X ∧
        X.col 0 = #[-1, 1]) ∧
      ReportsSingular (backSubstituteVector (R := ℝ) (⟨2, 2, #[1, 2, 0, 0]⟩ : Mat ℝ) #[1, 1]) := by
  have hsystem {r : ℝ} (hr : r = 0 ∨ r = 1) :
      IsTriangularSystem ⟨2, 2, #[1, 2, 0, r]⟩ ⟨2, 1, #[1, 1]⟩ 2 :=
    isTriangularSystem_two (Or.inr rfl) (by norm_num) hr (Or.inr rfl) (Or.inr rfl)
  have hupper {r : ℝ} (hr : r = 0 ∨ r = 1) :
      (⟨2, 2, #[1, 2, 0, r]⟩ : Mat ℝ).IsUpperTriangular 2 :=
    ⟨rfl, rfl, fun i _ => (hsystem hr).upper i⟩
  have hregular : ¬HasNegligiblePivot (⟨2, 2, #[1, 2, 0, 1]⟩ : Mat ℝ) 2 := by
    rw [(hupper (Or.inr rfl)).hasNegligiblePivot_iff]
    rintro ⟨r, hr, hle⟩
    refine ((hsystem (Or.inr rfl)).pivot r hr).elim (fun hzero => ?_) hle.not_gt
    interval_cases r <;> exact one_ne_zero hzero
  have hsingular : HasNegligiblePivot (⟨2, 2, #[1, 2, 0, 0]⟩ : Mat ℝ) 2 := by
    refine ⟨1, ?_⟩
    change ‖(0 : ℝ)‖ ≤ _
    rw [norm_zero]
    positivity
  have hsolves : (⟨2, 2, #[1, 2, 0, 1]⟩ : Mat ℝ).mulVec #[-1, 1] = #[1, 1] := by
    refine Array.ext rfl fun i hi _ => ?_
    rw [← getD_of_lt_size hi, Mat.getD_mulVec _ _ hi]
    rw [Mat.size_mulVec] at hi
    interval_cases i <;> norm_num [Finset.sum_range_succ, Mat.get]
  obtain ⟨hcolumns, hvectors⟩ := backSubstitute_regular (hupper (Or.inr rfl))
  obtain ⟨x, hok, -, -, hunique⟩ := (hvectors #[1, 1] rfl).2 hregular
  obtain ⟨X, hX, -, -, -, hcol⟩ := (hcolumns ⟨2, 1, #[1, 1]⟩ rfl).2 hregular
  obtain rfl : #[-1, 1] = x := hunique #[-1, 1] rfl hsolves
  refine ⟨hupper (Or.inr rfl), hregular, hok, ⟨X, hX, ?_⟩,
    ((backSubstitute_regular (hupper (Or.inl rfl))).2 #[1, 1] rfl).1.mpr hsingular⟩
  exact Except.ok.inj ((hcol 0 Nat.one_pos).symm.trans hok)

end Solutions

end PolynomialEquations
