import PolynomialEquations.Proofs.Matrix.Reflector

/-!
# The orthogonal factorisation

Every step of the factorisation keeps the product of the two factors and keeps the first one
unitary. When every column of the matrix stays away from the span of the columns before it by more
than the tolerance, no column is skipped: what a step finds at and below the diagonal is at least
that far from zero, and the step leaves an entry of the same size on the diagonal and zeros below.
-/

namespace PolynomialEquations

open Matrix

variable {K : Type} [RCLike K]

section Elimination

variable {m n : ℕ}

/-- The first `j` columns are zero below the diagonal. -/
def IsEliminated (M : Matrix (Fin m) (Fin n) K) (j : ℕ) : Prop :=
  ∀ (i : Fin m) (c : Fin n), (c : ℕ) < j → (c : ℕ) < i → M i c = 0

/-- The first `j` diagonal entries are at least `δ`. -/
def HasDiagonal (M : Matrix (Fin m) (Fin n) K) (δ : ℝ) (j : ℕ) : Prop :=
  ∀ (i : Fin m) (c : Fin n), (c : ℕ) < j → (i : ℕ) = c → δ ≤ ‖M i c‖

/-- Every column of the matrix has at least distance `δ` from the span of the columns before it. -/
def ColumnsApart (M : Matrix (Fin m) (Fin n) K) (δ : ℝ) : Prop :=
  ∀ (j : Fin n) (v : Fin n → K), v j = 1 → (∀ c, j < c → v c = 0) →
    δ ^ 2 ≤ ∑ i, ‖(M *ᵥ v) i‖ ^ 2

/-- Columns that stay apart also do so at a smaller distance. -/
theorem ColumnsApart.mono {M : Matrix (Fin m) (Fin n) K} {δ ε : ℝ} (h : ColumnsApart M δ)
    (hnonneg : 0 ≤ ε) (hle : ε ≤ δ) : ColumnsApart M ε := fun j v hvj hvlater =>
  (pow_le_pow_left₀ hnonneg hle 2).trans (h j v hvj hvlater)

/-- Multiplying by a unitary matrix keeps the length of a vector. -/
theorem sum_norm_unitary_mulVec {ι : Type} [Fintype ι] [DecidableEq ι] {Q : Matrix ι ι K}
    (hQ : Q ∈ unitaryGroup ι K) (v : ι → K) : ∑ i, ‖(Q *ᵥ v) i‖ ^ 2 = ∑ i, ‖v i‖ ^ 2 := by
  have hstar : star (Q *ᵥ v) ⬝ᵥ (Q *ᵥ v) = star v ⬝ᵥ v := by
    rw [star_mulVec, dotProduct_mulVec, vecMul_vecMul, ← star_eq_conjTranspose,
      mem_unitaryGroup_iff'.mp hQ, vecMul_one]
  rw [star_dotProduct_self, star_dotProduct_self] at hstar
  exact RCLike.ofReal_injective hstar

/-- In a row without entries before column `j`, a combination of column `j` with the columns before
it has the entry of column `j`. -/
theorem mulVec_apply_of_combination {M : Matrix (Fin m) (Fin n) K} {i : Fin m} {j : Fin n}
    {v : Fin n → K} (hvj : v j = 1) (hvlater : ∀ c, j < c → v c = 0)
    (hrow : ∀ c < j, M i c = 0) : (M *ᵥ v) i = M i j := by
  rw [mulVec, dotProduct, Finset.sum_eq_single j]
  · rw [hvj, mul_one]
  · intro c _ hc
    rcases lt_or_gt_of_ne hc with hlt | hgt
    · rw [hrow c hlt, zero_mul]
    · rw [hvlater c hgt, mul_zero]
  · exact fun hmem => absurd (Finset.mem_univ j) hmem

/-- A combination of column `j` with the columns before it that vanishes above row `j`. -/
theorem exists_eliminating {M : Matrix (Fin m) (Fin n) K} {δ : ℝ} (hδ : 0 < δ) {j : Fin n}
    (hj : (j : ℕ) < m) (hM : IsEliminated M j) (hdiagonal : HasDiagonal M δ j) :
    ∀ d ≤ (j : ℕ), ∃ v : Fin n → K, v j = 1 ∧ (∀ c, j < c → v c = 0) ∧
      ∀ i : Fin m, (j : ℕ) - d ≤ i → (i : ℕ) < j → (M *ᵥ v) i = 0 := by
  intro d
  induction d with
  | zero =>
    intro _
    refine ⟨Pi.single j 1, Pi.single_eq_same j 1, fun c hc => Pi.single_eq_of_ne hc.ne' 1, ?_⟩
    intro i hi hij
    omega
  | succ d ih =>
    intro hd
    obtain ⟨v, hvj, hvc, hzero⟩ := ih (by omega)
    -- the multiple of the next column up that makes its diagonal row vanish
    let k : Fin n := ⟨j - (d + 1), by omega⟩
    let row : Fin m := ⟨j - (d + 1), by omega⟩
    have hkj : k < j := by
      rw [Fin.lt_def]
      simp only [k]
      omega
    have hpivot : M row k ≠ 0 := by
      have hge := hdiagonal row k hkj rfl
      exact norm_pos_iff.mp (hδ.trans_le hge)
    let t := -(M *ᵥ v) row / M row k
    have hentry : ∀ i, (M *ᵥ (v + Pi.single k t)) i = (M *ᵥ v) i + M i k * t := by
      intro i
      rw [mulVec_add, Pi.add_apply, mulVec_single]
      rfl
    refine ⟨v + Pi.single k t, ?_, ?_, ?_⟩
    · rw [Pi.add_apply, hvj, Pi.single_eq_of_ne hkj.ne', add_zero]
    · intro c hc
      rw [Pi.add_apply, hvc c hc, Pi.single_eq_of_ne (hkj.trans hc).ne', add_zero]
    · intro i hi hij
      rw [hentry]
      by_cases hrow : (i : ℕ) = k
      · obtain rfl : i = row := Fin.ext hrow
        rw [mul_div_cancel₀ _ hpivot, add_neg_cancel]
      · have hki : (k : ℕ) < i := lt_of_le_of_ne hi (Ne.symm hrow)
        rw [hzero i (by simp only [k] at hki; omega) hij, hM i k hkj hki, zero_mul, add_zero]

/-- A combination of column `j` with the columns before it leaves the part of column `j` at and
below the diagonal. -/
theorem exists_mulVec_eq_below {M : Matrix (Fin m) (Fin n) K} {δ : ℝ} (hδ : 0 < δ) {j : Fin n}
    (hj : (j : ℕ) < m) (hM : IsEliminated M j) (hdiagonal : HasDiagonal M δ j) :
    ∃ v : Fin n → K, v j = 1 ∧ (∀ c, j < c → v c = 0) ∧
      M *ᵥ v = fun i : Fin m => if (i : ℕ) < j then 0 else M i j := by
  obtain ⟨v, hvj, hvc, hzero⟩ := exists_eliminating hδ hj hM hdiagonal j le_rfl
  refine ⟨v, hvj, hvc, funext fun i => ?_⟩
  by_cases hi : (i : ℕ) < j
  · rw [if_pos hi, hzero i (by omega) hi]
  · rw [if_neg hi]
    refine mulVec_apply_of_combination hvj hvc fun c hc => hM i c hc ?_
    exact lt_of_lt_of_le hc (not_lt.mp hi)

/-- A reflection that fixes the first `j` positions keeps the columns eliminated so far. -/
theorem IsEliminated.reflection_mul_apply {M : Matrix (Fin m) (Fin n) K} {j : ℕ}
    (hM : IsEliminated M j) {v : Fin m → K} (hv : ∀ i : Fin m, (i : ℕ) < j → v i = 0) (i : Fin m)
    {c : Fin n} (hc : (c : ℕ) < j) : (reflection v * M) i c = M i c := by
  rw [PolynomialEquations.reflection_mul_apply, Finset.sum_eq_zero, mul_zero, sub_zero]
  intro k _
  by_cases hk : (k : ℕ) < j
  · rw [hv k hk, star_zero, zero_mul]
  · rw [hM k c hc (by omega), mul_zero]

/-- From position `j` on such a reflection acts on a column as on its part from there on. -/
theorem reflection_mul_apply_of_le {M : Matrix (Fin m) (Fin n) K} {j : ℕ} {v x : Fin m → K}
    (hv : ∀ i : Fin m, (i : ℕ) < j → v i = 0) {c : Fin n}
    (hx : ∀ i : Fin m, j ≤ (i : ℕ) → x i = M i c) {i : Fin m} (hi : j ≤ (i : ℕ)) :
    (reflection v * M) i c = (reflection v *ᵥ x) i := by
  have hsum : ∑ k, star (v k) * M k c = star v ⬝ᵥ x := by
    refine Finset.sum_congr rfl fun k _ => ?_
    by_cases hk : (k : ℕ) < j
    · rw [Pi.star_apply, hv k hk, star_zero, zero_mul, zero_mul]
    · rw [Pi.star_apply, hx k (by omega)]
  rw [PolynomialEquations.reflection_mul_apply, reflection_mulVec, hsum, Pi.sub_apply,
    Pi.smul_apply, Pi.add_apply, smul_eq_mul, hx i hi, mul_comm]

end Elimination

section Steps

variable {A : Mat K} {F : QR K} {δ tol : ℝ} {j : ℕ}

/-- The matrix is the product of the two factors, and the first one is unitary. -/
structure IsFactorization (A : Mat K) (F : QR K) : Prop where
  /-- The unitary factor is square. -/
  rows_q : F.q.rows = A.rows
  /-- The unitary factor is square. -/
  cols_q : F.q.cols = A.rows
  /-- The other factor has the shape of the matrix. -/
  rows_r : F.r.rows = A.rows
  /-- The other factor has the shape of the matrix. -/
  cols_r : F.r.cols = A.cols
  /-- The first factor is unitary. -/
  unitary : F.q.toMatrix A.rows A.rows ∈ unitaryGroup (Fin A.rows) K
  /-- The product of the factors. -/
  product : F.q.toMatrix A.rows A.rows * F.r.toMatrix A.rows A.cols = A.toMatrix A.rows A.cols

/-- The factorisation begins with the identity and the matrix itself. -/
theorem isFactorization_start (A : Mat K) : IsFactorization A ⟨Mat.identity A.rows, A⟩ := by
  have hone : (Mat.identity A.rows : Mat K).toMatrix A.rows A.rows = 1 := by
    ext i k
    rw [Mat.toMatrix_apply, Mat.identity, Mat.get_ofFn _ i.isLt k.isLt, one_apply]
    simp only [Fin.ext_iff]
  refine ⟨rfl, rfl, rfl, rfl, ?_, ?_⟩
  · rw [hone]
    exact one_mem _
  · rw [hone, Matrix.one_mul]

/-- Reflecting both factors along a unit vector keeps the product. -/
theorem IsFactorization.reflect (h : IsFactorization A F) {w : Array K}
    (hw : star (placedFrom A.rows j w) ⬝ᵥ placedFrom A.rows j w = 1) :
    IsFactorization A ⟨reflectCols (R := ℝ) w j F.q, reflectRows (R := ℝ) w j F.r⟩ := by
  have hH := reflection_mem_unitaryGroup hw
  refine ⟨h.rows_q, h.cols_q, h.rows_r, h.cols_r, ?_, ?_⟩
  · rw [toMatrix_reflectCols w j h.rows_q h.cols_q]
    exact mul_mem h.unitary hH
  · have hsquare : reflection (placedFrom A.rows j w) * reflection (placedFrom A.rows j w) = 1 := by
      rw [mem_unitaryGroup_iff, star_eq_conjTranspose, conjTranspose_reflection] at hH
      exact hH
    rw [toMatrix_reflectCols w j h.rows_q h.cols_q, toMatrix_reflectRows w j h.rows_r h.cols_r,
      Matrix.mul_assoc, ← Matrix.mul_assoc (reflection _), hsquare, Matrix.one_mul, h.product]

theorem size_belowDiagonal (R : Mat K) (j : ℕ) : (belowDiagonal R j).size = R.rows - j :=
  Array.size_ofFn

/-- The part of a column at and below the diagonal, placed where it comes from. -/
theorem placedFrom_belowDiagonal {R : Mat K} {m n : ℕ} (hm : R.rows = m) (c : Fin n) :
    placedFrom m c (belowDiagonal R c) =
      fun i : Fin m => if (i : ℕ) < c then 0 else R.toMatrix m n i c := by
  funext i
  rw [placedFrom]
  by_cases hi : (i : ℕ) < c
  · rw [if_pos hi, if_pos hi]
  · rw [if_neg hi, if_neg hi, belowDiagonal, getD_ofFn, dif_pos (by omega)]
    simp only [Mat.toMatrix_apply]
    rw [Nat.add_sub_cancel' (by omega)]

/-- What a step finds at and below the diagonal is as long as the column is away from the columns
before it. -/
theorem IsFactorization.le_belowDiagonal (h : IsFactorization A F)
    (hA : ColumnsApart (A.toMatrix A.rows A.cols) δ) (hδ : 0 < δ) (c : Fin A.cols)
    (hc : (c : ℕ) < A.rows) (hzero : IsEliminated (F.r.toMatrix A.rows A.cols) c)
    (hdiagonal : HasDiagonal (F.r.toMatrix A.rows A.cols) δ c) :
    δ ≤ euclideanNorm (belowDiagonal F.r c) := by
  obtain ⟨v, hvc, hvlater, hbelow⟩ := exists_mulVec_eq_below hδ hc hzero hdiagonal
  rw [← placedFrom_belowDiagonal h.rows_r] at hbelow
  have hle := hA c v hvc hvlater
  rw [← h.product, ← mulVec_mulVec, sum_norm_unitary_mulVec h.unitary, hbelow,
    sum_norm_placedFrom (by rw [size_belowDiagonal, h.rows_r])] at hle
  exact (pow_le_pow_iff_left₀ hδ.le (euclideanNorm_nonneg _) two_ne_zero).mp hle

/-- The state of the factorisation before column `j`: no column has been skipped. -/
structure FactorProgress (A : Mat K) (δ : ℝ) (F : QR K) (j : ℕ) : Prop extends
    IsFactorization A F where
  /-- The columns treated are zero below the diagonal. -/
  eliminated : IsEliminated (F.r.toMatrix A.rows A.cols) j
  /-- The diagonal entries of the columns treated are large. -/
  diagonal : HasDiagonal (F.r.toMatrix A.rows A.cols) δ j

/-- A step skips a column that is at most as long as the tolerance at and below the diagonal, and
reflects any other. -/
theorem factorStep_cases (htol : 0 ≤ tol) (F : QR K) (j : ℕ) :
    (euclideanNorm (belowDiagonal F.r j) ≤ tol ∧ factorStep tol F j = F) ∨
    (tol < euclideanNorm (belowDiagonal F.r j) ∧
      factorStep tol F j =
        ⟨reflectCols (R := ℝ) (reflector (R := ℝ) (belowDiagonal F.r j)) j F.q,
          reflectRows (R := ℝ) (reflector (R := ℝ) (belowDiagonal F.r j)) j F.r⟩) := by
  by_cases hle : euclideanNorm (belowDiagonal F.r j) ≤ tol
  · exact Or.inl ⟨hle, if_pos (by simp [hle])⟩
  · have hnorm : (euclideanNorm (belowDiagonal F.r j) : ℝ) ≠ 0 :=
      (htol.trans_lt (not_le.mp hle)).ne'
    exact Or.inr ⟨not_le.mp hle, if_neg (by simp [hle, hnorm])⟩

/-- The reflection chosen for a column leaves of it, from the diagonal on, an entry on the diagonal
that is as large as the column was long there. -/
theorem reflector_mul_apply {B : Mat K} {m n : ℕ} (hm : B.rows = m) (c : Fin n) (hc : (c : ℕ) < m)
    (hnorm : (euclideanNorm (belowDiagonal B c) : ℝ) ≠ 0) :
    ∃ t : K, ‖t‖ = euclideanNorm (belowDiagonal B c) ∧ ∀ i : Fin m, (c : ℕ) ≤ i →
      (reflection (placedFrom m c (reflector (R := ℝ) (belowDiagonal B c))) * B.toMatrix m n) i c =
        (Pi.single ⟨c, hc⟩ t : Fin m → K) i := by
  have hsize : (belowDiagonal B c).size = m - c := by rw [size_belowDiagonal, hm]
  obtain ⟨-, t, ht, hreflect⟩ := reflector_spec hc hsize hnorm
  refine ⟨t, ht, fun i hi => ?_⟩
  rw [← hreflect]
  refine reflection_mul_apply_of_le (fun k => placedFrom_of_lt _) (fun k hk => ?_) hi
  have hplaced := congrFun (placedFrom_belowDiagonal hm c) k
  rwa [if_neg (by omega)] at hplaced

/-- A step treats one more column. -/
theorem FactorProgress.step (h : FactorProgress A δ F j)
    (hA : ColumnsApart (A.toMatrix A.rows A.cols) δ) (hδ : 0 < δ) (hnonneg : 0 ≤ tol)
    (htol : tol < δ) (hrow : j < A.rows) (hcol : j < A.cols) :
    FactorProgress A δ (factorStep tol F j) (j + 1) := by
  let c : Fin A.cols := ⟨j, hcol⟩
  let x := belowDiagonal F.r j
  have hx : δ ≤ euclideanNorm x := h.le_belowDiagonal hA hδ c hrow h.eliminated h.diagonal
  obtain ⟨hle, -⟩ | ⟨-, hstep⟩ := factorStep_cases hnonneg F j
  · exact absurd (hx.trans hle) htol.not_ge
  have hnorm : (euclideanNorm x : ℝ) ≠ 0 := (hδ.trans_le hx).ne'
  obtain ⟨hunit, -⟩ := reflector_spec hrow (by rw [size_belowDiagonal, h.rows_r]) hnorm
  obtain ⟨t, ht, hcolumn⟩ := reflector_mul_apply h.rows_r c hrow hnorm
  have hv : ∀ i : Fin A.rows, (i : ℕ) < j →
      placedFrom A.rows j (reflector (R := ℝ) x) i = 0 := fun i => placedFrom_of_lt _
  rw [hstep]
  refine ⟨h.toIsFactorization.reflect hunit, fun i k hk hki => ?_, fun i k hk hik => ?_⟩
  all_goals rw [toMatrix_reflectRows _ j h.rows_r h.cols_r]
  · rcases Nat.lt_succ_iff_lt_or_eq.mp hk with hlt | heq
    · rw [h.eliminated.reflection_mul_apply hv i hlt]
      exact h.eliminated i k hlt hki
    · obtain rfl : k = c := Fin.ext heq
      exact (hcolumn i hki.le).trans (Pi.single_eq_of_ne (Fin.ne_of_val_ne hki.ne') _)
  · rcases Nat.lt_succ_iff_lt_or_eq.mp hk with hlt | heq
    · rw [h.eliminated.reflection_mul_apply hv i hlt]
      exact h.diagonal i k hlt hik
    · obtain rfl : k = c := Fin.ext heq
      obtain rfl : i = ⟨j, hrow⟩ := Fin.ext hik
      rw [hcolumn _ le_rfl, Pi.single_eq_same, ht]
      exact hx

/-- The length at and below the diagonal up to which a column is skipped. -/
noncomputable def columnTolerance (A : Mat K) : ℝ :=
  if A.rows * A.cols = 0 then 0 else negligible ℝ * A.frobeniusNorm

theorem columnTolerance_nonneg (A : Mat K) : 0 ≤ columnTolerance A := by
  rw [columnTolerance]
  split
  · exact le_rfl
  · exact mul_nonneg negligible_pos.le (euclideanNorm_nonneg _)

theorem columnTolerance_le (A : Mat K) : columnTolerance A ≤ negligible ℝ * A.frobeniusNorm := by
  rw [columnTolerance]
  split
  · exact mul_nonneg negligible_pos.le (euclideanNorm_nonneg _)
  · exact le_rfl

/-- The factorisation before column `j`. -/
noncomputable def factorState (A : Mat K) (j : ℕ) : QR K :=
  (List.range j).foldl (factorStep (columnTolerance A)) ⟨Mat.identity A.rows, A⟩

theorem factorState_succ (A : Mat K) (j : ℕ) :
    factorState A (j + 1) = factorStep (columnTolerance A) (factorState A j) j := by
  rw [factorState, List.range_succ, List.foldl_append]
  rfl

/-- The steps end before the column behind the last one that has a diagonal entry. -/
theorem factorSteps_eq (A : Mat K) :
    factorSteps (R := ℝ) A = factorState A (min A.rows A.cols) := rfl

/-- All steps together treat every column. -/
theorem factorProgress_factorState (hA : ColumnsApart (A.toMatrix A.rows A.cols) δ) (hδ : 0 < δ)
    (htol : columnTolerance A < δ) {k : ℕ} (hrow : k ≤ A.rows) (hcol : k ≤ A.cols) :
    FactorProgress A δ (factorState A k) k := by
  induction k with
  | zero =>
    exact ⟨isFactorization_start A, fun i c hc => absurd hc (Nat.not_lt_zero _),
      fun i c hc => absurd hc (Nat.not_lt_zero _)⟩
  | succ k ih =>
    rw [factorState_succ]
    exact (ih (by omega) (by omega)).step hA hδ (columnTolerance_nonneg A) htol (by omega)
      (by omega)

/-- When no column comes closer to the columns before it than the tolerance, the complete
factorisation is exact, with zeros below the diagonal and large entries on it. -/
theorem householderQR_complete (hA : ColumnsApart (A.toMatrix A.rows A.cols) δ) (hδ : 0 < δ)
    (htol : negligible ℝ * A.frobeniusNorm < δ) (hshape : A.cols ≤ A.rows) :
    FactorProgress A δ (householderQR (R := ℝ) A .complete) A.cols := by
  have hsteps : FactorProgress A δ (factorSteps (R := ℝ) A) A.cols := by
    rw [factorSteps_eq, Nat.min_eq_right hshape]
    exact factorProgress_factorState hA hδ ((columnTolerance_le A).trans_lt htol) hshape le_rfl
  have hclear : (householderQR (R := ℝ) A .complete).r.toMatrix A.rows A.cols =
      (factorSteps (R := ℝ) A).r.toMatrix A.rows A.cols := by
    ext i c
    rw [Mat.toMatrix_apply, householderQR, Mat.get_ofFn _ i.isLt c.isLt]
    split
    · exact (hsteps.eliminated i c c.isLt ‹_›).symm
    · rfl
  refine ⟨⟨hsteps.rows_q, hsteps.cols_q, rfl, rfl, hsteps.unitary, ?_⟩, ?_, ?_⟩
  · rw [hclear]
    exact hsteps.product
  · rw [hclear]
    exact hsteps.eliminated
  · rw [hclear]
    exact hsteps.diagonal

end Steps

end PolynomialEquations
