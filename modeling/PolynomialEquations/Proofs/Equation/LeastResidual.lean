import PolynomialEquations.Equation.LeastSum
import PolynomialEquations.Proofs.Kernel.Programs

/-!
# The least absolute sum of a residual

The program for the residual of a system of linear equations splits every entry of the residual into
two parts that must not be negative. It is well posed for every matrix and right side. Splitting the
residual of any point into its positive and its negative part gives a feasible point that costs the
absolute sum of the residual. So an optimal point costs no more than its own residual, and its two
parts cannot both be positive.
-/

namespace PolynomialEquations

variable {solver : ProgramSolver ℝ} {T : Mat ℝ} {b : Array ℝ}

/-- Entry `i` of the residual of `u`. -/
def residualEntry (T : Mat ℝ) (b u : Array ℝ) (i : ℕ) : ℝ := b.getD i 0 - (T.mulVec u).getD i 0

/-- The absolute sum of the residual of `u`. -/
def residualSum (T : Mat ℝ) (b u : Array ℝ) : ℝ :=
  ∑ i ∈ Finset.range T.rows, |residualEntry T b u i|

section Program

/-- A product with a matrix depends only on as many entries as there are columns. -/
theorem getD_mulVec_congr {u v : Array ℝ} (h : ∀ j < T.cols, u.getD j 0 = v.getD j 0) {i : ℕ}
    (hi : i < T.rows) : (T.mulVec u).getD i 0 = (T.mulVec v).getD i 0 := by
  rw [Mat.getD_mulVec _ _ hi, Mat.getD_mulVec _ _ hi]
  exact Finset.sum_congr rfl fun j hj => by rw [h j (Finset.mem_range.mp hj)]

theorem rows_residualProgram (T : Mat ℝ) (b : Array ℝ) :
    (residualProgram T b).matrix.rows = T.rows := rfl

theorem cols_residualProgram (T : Mat ℝ) (b : Array ℝ) :
    (residualProgram T b).matrix.cols = T.cols + T.rows + T.rows := by
  change T.cols + 2 * T.rows = _
  omega

/-- An equation of the program for the residual. -/
theorem getD_mulVec_residualProgram (T : Mat ℝ) (b v : Array ℝ) {i : ℕ} (hi : i < T.rows) :
    ((residualProgram T b).matrix.mulVec v).getD i 0 = (T.mulVec v).getD i 0 +
      v.getD (T.cols + i) 0 - v.getD (T.cols + T.rows + i) 0 := by
  have hentry : ∀ j < T.cols + 2 * T.rows, (residualProgram T b).matrix.get i j =
      if j < T.cols then T.get i j else if j = T.cols + i then 1
        else if j = T.cols + T.rows + i then -1 else 0 := fun j hj => Mat.get_ofFn _ hi hj
  have hrow : i < (residualProgram T b).matrix.rows := hi
  rw [Mat.getD_mulVec _ _ hrow, Mat.getD_mulVec _ _ hi, cols_residualProgram, Finset.sum_range_add,
    Finset.sum_range_add, sub_eq_add_neg]
  congr 1
  · congr 1
    · refine Finset.sum_congr rfl fun j hj => ?_
      rw [Finset.mem_range] at hj
      rw [hentry j (by omega), if_pos hj]
    · rw [Finset.sum_eq_single i]
      · rw [hentry _ (by omega), if_neg (by omega), if_pos rfl, one_mul]
      · intro j hj hji
        rw [Finset.mem_range] at hj
        rw [hentry _ (by omega), if_neg (by omega), if_neg (by omega), if_neg (by omega), zero_mul]
      · exact fun hout => absurd (Finset.mem_range.mpr hi) hout
  · rw [Finset.sum_eq_single i]
    · rw [hentry _ (by omega), if_neg (by omega), if_neg (by omega), if_pos rfl, neg_one_mul]
    · intro j hj hji
      rw [Finset.mem_range] at hj
      rw [hentry _ (by omega), if_neg (by omega), if_neg (by omega), if_neg (by omega), zero_mul]
    · exact fun hout => absurd (Finset.mem_range.mpr hi) hout

/-- The cost of a point is the sum of the split parts. -/
theorem costOf_residualProgram (T : Mat ℝ) (b v : Array ℝ) :
    (residualProgram T b).costOf v =
      ∑ i ∈ Finset.range T.rows, (v.getD (T.cols + i) 0 + v.getD (T.cols + T.rows + i) 0) := by
  have hcost : ∀ j < T.cols + 2 * T.rows, (residualProgram T b).cost.getD j 0 =
      if j < T.cols then 0 else 1 := by
    intro j hj
    simp only [residualProgram, Array.getD_eq_getD_getElem?, Array.getElem?_append,
      Array.size_replicate, Array.getElem?_replicate]
    by_cases hj' : j < T.cols
    · rw [if_pos hj', if_pos hj', if_pos hj', Option.getD_some]
    · rw [if_neg hj', if_neg hj', if_pos (by omega), Option.getD_some]
  rw [LinearProgram.costOf, cols_residualProgram, Finset.sum_range_add, Finset.sum_range_add,
    Finset.sum_eq_zero, zero_add, ← Finset.sum_add_distrib]
  · refine Finset.sum_congr rfl fun i hi => ?_
    rw [Finset.mem_range] at hi
    rw [hcost _ (by omega), hcost _ (by omega), if_neg (by omega), if_neg (by omega), one_mul,
      one_mul]
  · intro j hj
    rw [Finset.mem_range] at hj
    rw [hcost _ (by omega), if_pos hj, zero_mul]

/-- A point is feasible exactly when the split parts are not negative and differ by the residual. -/
theorem isFeasible_residualProgram_iff (hb : b.size = T.rows) {v : Array ℝ}
    (hv : v.size = T.cols + T.rows + T.rows) :
    (residualProgram T b).IsFeasible v ↔
      (∀ i < T.rows, v.getD (T.cols + i) 0 - v.getD (T.cols + T.rows + i) 0 =
        residualEntry T b v i) ∧ ∀ i, T.cols ≤ i → 0 ≤ v.getD i 0 := by
  have hequation : ∀ i < T.rows, ((residualProgram T b).matrix.mulVec v).getD i 0 = b.getD i 0 ↔
      v.getD (T.cols + i) 0 - v.getD (T.cols + T.rows + i) 0 = residualEntry T b v i := by
    intro i hi
    rw [getD_mulVec_residualProgram T b v hi, residualEntry]
    constructor <;> intro h <;> linarith
  constructor
  · rintro ⟨-, hmul, hnonneg⟩
    exact ⟨fun i hi => (hequation i hi).mp (by rw [hmul]; rfl), hnonneg⟩
  · rintro ⟨hparts, hnonneg⟩
    refine ⟨hv.trans (cols_residualProgram T b).symm, ?_, hnonneg⟩
    refine eq_of_getD_eq ((Mat.size_mulVec _ _).trans hb.symm) fun i => ?_
    by_cases hi : i < T.rows
    · exact (hequation i hi).mpr (hparts i hi)
    · rw [getD_of_size_le (by rw [Mat.size_mulVec, rows_residualProgram]; omega)]
      exact (getD_of_size_le (by change b.size ≤ i; omega)).symm

end Program

section Split

/-- The point with the entries of `u` and the positive and negative parts of its residual. -/
def splitPoint (T : Mat ℝ) (b u : Array ℝ) : Array ℝ :=
  Array.ofFn fun j : Fin (T.cols + T.rows + T.rows) =>
    if (j : ℕ) < T.cols then u.getD j 0
    else if (j : ℕ) < T.cols + T.rows then max (residualEntry T b u (j - T.cols)) 0
    else max (-residualEntry T b u (j - (T.cols + T.rows))) 0

@[simp] theorem size_splitPoint (T : Mat ℝ) (b u : Array ℝ) :
    (splitPoint T b u).size = T.cols + T.rows + T.rows := Array.size_ofFn

theorem getD_splitPoint_of_lt (u : Array ℝ) {j : ℕ} (hj : j < T.cols) :
    (splitPoint T b u).getD j 0 = u.getD j 0 := by
  rw [splitPoint, getD_ofFn, dif_pos (by omega), if_pos hj]

theorem getD_splitPoint_positive (u : Array ℝ) {i : ℕ} (hi : i < T.rows) :
    (splitPoint T b u).getD (T.cols + i) 0 = max (residualEntry T b u i) 0 := by
  rw [splitPoint, getD_ofFn, dif_pos (by omega), if_neg (by simp), if_pos (by simpa using hi)]
  simp

theorem getD_splitPoint_negative (u : Array ℝ) {i : ℕ} (hi : i < T.rows) :
    (splitPoint T b u).getD (T.cols + T.rows + i) 0 = max (-residualEntry T b u i) 0 := by
  rw [splitPoint, getD_ofFn, dif_pos (by omega), if_neg (by simp; omega), if_neg (by simp)]
  simp

/-- Splitting the residual of any vector gives a feasible point. -/
theorem isFeasible_splitPoint (hb : b.size = T.rows) (u : Array ℝ) :
    (residualProgram T b).IsFeasible (splitPoint T b u) := by
  rw [isFeasible_residualProgram_iff hb (size_splitPoint T b u)]
  constructor
  · intro i hi
    have hmul : (T.mulVec (splitPoint T b u)).getD i 0 = (T.mulVec u).getD i 0 :=
      getD_mulVec_congr (fun j hj => getD_splitPoint_of_lt u hj) hi
    rw [getD_splitPoint_positive u hi, getD_splitPoint_negative u hi,
      max_zero_sub_max_neg_zero_eq_self, residualEntry, residualEntry, hmul]
  · intro j hj
    rw [splitPoint, getD_ofFn]
    split
    · rw [if_neg (by simpa using hj)]
      split <;> exact le_max_right _ _
    · exact le_rfl

/-- The point costs the absolute sum of the residual. -/
theorem costOf_splitPoint (T : Mat ℝ) (b u : Array ℝ) :
    (residualProgram T b).costOf (splitPoint T b u) = residualSum T b u := by
  rw [costOf_residualProgram, residualSum]
  refine Finset.sum_congr rfl fun i hi => ?_
  rw [Finset.mem_range] at hi
  rw [getD_splitPoint_positive u hi, getD_splitPoint_negative u hi]
  exact max_zero_add_max_neg_zero_eq_abs_self _

/-- The program for the residual is well posed. -/
theorem isWellPosed_residualProgram (hb : b.size = T.rows) :
    (residualProgram T b).IsWellPosed where
  wellShaped :=
    { cost_size := by
        change (Array.replicate T.cols (0 : ℝ) ++ Array.replicate (2 * T.rows) 1).size = _
        rw [Array.size_append, Array.size_replicate, Array.size_replicate]
        rfl
      entries_size := Array.size_ofFn
      rhs_size := hb
      free_le := Nat.le_add_right _ _ }
  feasible := ⟨_, isFeasible_splitPoint hb #[]⟩
  bounded := by
    refine ⟨0, fun v hv => ?_⟩
    rw [costOf_residualProgram]
    exact Finset.sum_nonneg fun i _ => add_nonneg (hv.nonneg _ (Nat.le_add_right _ _))
      (hv.nonneg _ (by change T.cols ≤ _; omega))

end Split

/-- A vector whose residual has the least absolute sum, with that residual and its sum. -/
structure IsLeastResidual (T : Mat ℝ) (b : Array ℝ) (best : LeastSum ℝ) : Prop where
  /-- There is one entry for every column. -/
  size_x : best.x.size = T.cols
  /-- There is one entry for every row. -/
  size_y : best.y.size = T.rows
  /-- The second part is the residual of the first. -/
  residual_eq : ∀ i < T.rows, best.y.getD i 0 = residualEntry T b best.x i
  /-- The value is the absolute sum. -/
  value_eq : best.value = residualSum T b best.x
  /-- No other vector has a residual of smaller absolute sum. -/
  minimal : ∀ u : Array ℝ, best.value ≤ residualSum T b u

/-- With an exact solver a vector with the least absolute sum of its residual is found. -/
theorem exists_leastResidual (hs : solver.SolvesPrograms) (hb : b.size = T.rows) :
    ∃ best, leastResidual solver T b = .ok best ∧ IsLeastResidual T b best := by
  obtain ⟨best, hsolve, hfeasible, hvalue, hminimal⟩ :=
    hs.solve_ok (isWellPosed_residualProgram hb)
  let v := best.point
  have hsize : v.size = T.cols + T.rows + T.rows :=
    hfeasible.size_eq.trans (cols_residualProgram T b)
  obtain ⟨hparts, hnonneg⟩ := (isFeasible_residualProgram_iff hb hsize).mp hfeasible
  let x := v.extract 0 T.cols
  let y := (v.extract T.cols (T.cols + T.rows)).zipWith (· - ·)
    (v.extract (T.cols + T.rows) (T.cols + T.rows + T.rows))
  have hx : ∀ i < T.rows, residualEntry T b x i = residualEntry T b v i := by
    intro i hi
    have hmul : (T.mulVec x).getD i 0 = (T.mulVec v).getD i 0 :=
      getD_mulVec_congr (fun j hj => by rw [getD_extract, Nat.zero_add, if_pos hj]) hi
    rw [residualEntry, residualEntry, hmul]
  have hy : ∀ i < T.rows, y.getD i 0 =
      v.getD (T.cols + i) 0 - v.getD (T.cols + T.rows + i) 0 := by
    intro i hi
    rw [getD_of_lt_size (by simp [y]; omega), Array.getElem_zipWith, Array.getElem_extract,
      Array.getElem_extract, getD_of_lt_size, getD_of_lt_size]
  have hleast : ∀ u : Array ℝ, best.value ≤ residualSum T b u := fun u => by
    rw [← costOf_splitPoint]
    exact hminimal _ (isFeasible_splitPoint hb u)
  refine ⟨⟨x, y, best.value⟩, by rw [leastResidual, hsolve]; rfl, ?_, ?_, ?_, ?_, hleast⟩
  · simp only [x, Array.size_extract]
    omega
  · simp only [y, Array.size_zipWith, Array.size_extract]
    omega
  · intro i hi
    rw [hy i hi, hx i hi, hparts i hi]
  · apply le_antisymm (hleast x)
    rw [hvalue, costOf_residualProgram, residualSum]
    refine Finset.sum_le_sum fun i hi => ?_
    rw [Finset.mem_range] at hi
    rw [hx i hi, ← hparts i hi]
    have hpositive := hnonneg (T.cols + i) (by omega)
    have hnegative := hnonneg (T.cols + T.rows + i) (by omega)
    rw [abs_le]
    constructor <;> linarith

end PolynomialEquations
