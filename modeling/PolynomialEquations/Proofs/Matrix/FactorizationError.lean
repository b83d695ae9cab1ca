import PolynomialEquations.Proofs.Matrix.Factorization
import PolynomialEquations.Proofs.Matrix.Norms
import Mathlib.RingTheory.LittleWedderburn

/-!
# What the factorisation discards

A column that is negligible at and below the diagonal is skipped, and what it has below the diagonal
stays in the matrix. Later reflections turn this residue among the rows further down without making
it longer, until it is cleared at the end. So the product of the factors misses the matrix by at
most the tolerance in each column, and it is the matrix itself when only zeros were skipped.
-/

namespace PolynomialEquations

open Matrix

variable {K : Type} [RCLike K]

section Residue

variable {m n : ℕ}

/-- The rows below the diagonal in column `c`. -/
def rowsBelow (m c : ℕ) : Finset (Fin m) := Finset.univ.filter fun i => c < i

@[simp] theorem mem_rowsBelow {c : ℕ} {i : Fin m} : i ∈ rowsBelow m c ↔ c < i := by
  simp [rowsBelow]

/-- What each of the first `j` columns has below the diagonal is at most `τ` long. -/
def ResidueBounded (M : Matrix (Fin m) (Fin n) K) (τ : ℝ) (j : ℕ) : Prop :=
  ∀ c : Fin n, (c : ℕ) < j → ∑ i ∈ rowsBelow m c, ‖M i c‖ ^ 2 ≤ τ ^ 2

/-- A reflection that fixes the first `j` positions keeps the length of what an earlier column has
below the diagonal: it keeps the length of the column and all entries up to the diagonal. -/
theorem sum_rowsBelow_reflection_mul {M : Matrix (Fin m) (Fin n) K} {v : Fin m → K} {j : ℕ}
    (hv : ∀ i : Fin m, (i : ℕ) < j → v i = 0) (hunit : star v ⬝ᵥ v = 1) {c : Fin n}
    (hc : (c : ℕ) < j) :
    ∑ i ∈ rowsBelow m c, ‖(reflection v * M) i c‖ ^ 2 = ∑ i ∈ rowsBelow m c, ‖M i c‖ ^ 2 := by
  have hall : ∑ i, ‖(reflection v * M) i c‖ ^ 2 = ∑ i, ‖M i c‖ ^ 2 :=
    sum_norm_unitary_mulVec (reflection_mem_unitaryGroup hunit) fun i => M i c
  have habove : ∑ i ∈ (rowsBelow m c)ᶜ, ‖(reflection v * M) i c‖ ^ 2 =
      ∑ i ∈ (rowsBelow m c)ᶜ, ‖M i c‖ ^ 2 := by
    refine Finset.sum_congr rfl fun i hi => ?_
    rw [Finset.mem_compl, mem_rowsBelow] at hi
    rw [reflection_mul_apply, hv i (by omega), add_zero, zero_mul, sub_zero]
  rw [← Finset.sum_add_sum_compl (rowsBelow m c), habove,
    ← Finset.sum_add_sum_compl (rowsBelow m c)] at hall
  exact add_right_cancel hall

end Residue

section Steps

variable {A : Mat K} {F : QR K} {τ tol : ℝ} {j : ℕ}

/-- The state of the factorisation before column `j`, some columns perhaps skipped. -/
structure ResidueProgress (A : Mat K) (τ : ℝ) (F : QR K) (j : ℕ) : Prop extends
    IsFactorization A F where
  /-- The columns treated have little below the diagonal. -/
  residue : ResidueBounded (F.r.toMatrix A.rows A.cols) τ j

/-- What a column has below the diagonal is at most as long as what it has at and below it. -/
theorem sum_rowsBelow_le {B : Mat K} {m n : ℕ} (hm : B.rows = m) (c : Fin n) :
    ∑ i ∈ rowsBelow m c, ‖B.toMatrix m n i c‖ ^ 2 ≤ euclideanNorm (belowDiagonal B c) ^ 2 := by
  rw [← sum_norm_placedFrom (m := m) (j := c) (by rw [size_belowDiagonal, hm]),
    placedFrom_belowDiagonal hm c]
  refine (Finset.sum_le_sum fun i hi => ?_).trans
    (Finset.sum_le_univ_sum_of_nonneg fun i => sq_nonneg _)
  dsimp only
  rw [if_neg (mem_rowsBelow.mp hi).le.not_gt]

/-- A step leaves little below the diagonal of one more column, if it skips the column only when
there is little at and below the diagonal. -/
theorem ResidueProgress.step (h : ResidueProgress A τ F j) (htol : 0 ≤ tol)
    (hskip : euclideanNorm (belowDiagonal F.r j) ≤ tol → euclideanNorm (belowDiagonal F.r j) ≤ τ)
    (hrow : j < A.rows) (hcol : j < A.cols) :
    ResidueProgress A τ (factorStep tol F j) (j + 1) := by
  let c : Fin A.cols := ⟨j, hcol⟩
  obtain ⟨hle, hstep⟩ | ⟨hlt, hstep⟩ := factorStep_cases htol F j <;> rw [hstep]
  · -- skipped: the residue of the column is what the step finds
    refine ⟨h.toIsFactorization, fun k hk => ?_⟩
    rcases Nat.lt_succ_iff_lt_or_eq.mp hk with hlt | heq
    · exact h.residue k hlt
    · obtain rfl : k = c := Fin.ext heq
      exact (sum_rowsBelow_le h.rows_r c).trans
        (pow_le_pow_left₀ (euclideanNorm_nonneg _) (hskip hle) 2)
  · -- reflected: nothing is left of the column, and the earlier residues keep their length
    have hnorm : (euclideanNorm (belowDiagonal F.r j) : ℝ) ≠ 0 := (htol.trans_lt hlt).ne'
    obtain ⟨hunit, -⟩ := reflector_spec hrow (by rw [size_belowDiagonal, h.rows_r]) hnorm
    obtain ⟨t, -, hcolumn⟩ := reflector_mul_apply h.rows_r c hrow hnorm
    refine ⟨h.toIsFactorization.reflect hunit, fun k hk => ?_⟩
    rw [toMatrix_reflectRows _ j h.rows_r h.cols_r]
    rcases Nat.lt_succ_iff_lt_or_eq.mp hk with hlt | heq
    · rw [sum_rowsBelow_reflection_mul (fun i => placedFrom_of_lt _) hunit hlt]
      exact h.residue k hlt
    · obtain rfl : k = c := Fin.ext heq
      refine (Finset.sum_eq_zero fun i hi => ?_).trans_le (sq_nonneg τ)
      have hi : (c : ℕ) < i := mem_rowsBelow.mp hi
      rw [hcolumn i hi.le, Pi.single_eq_of_ne (Fin.ne_of_val_ne hi.ne'), norm_zero,
        zero_pow two_ne_zero]

end Steps

section Runs

variable {A : Mat K} {τ : ℝ}

/-- The columns treated have little below the diagonal, if those skipped had little at and below
it. -/
theorem residueProgress_factorState {k : ℕ} (hrow : k ≤ A.rows) (hcol : k ≤ A.cols)
    (hskip : ∀ j < k, euclideanNorm (belowDiagonal (factorState A j).r j) ≤ columnTolerance A →
      euclideanNorm (belowDiagonal (factorState A j).r j) ≤ τ) :
    ResidueProgress A τ (factorState A k) k := by
  induction k with
  | zero => exact ⟨isFactorization_start A, fun c hc => absurd hc (Nat.not_lt_zero _)⟩
  | succ k ih =>
    rw [factorState_succ]
    have hbefore := ih (by omega) (by omega) fun j hj => hskip j (by omega)
    exact hbefore.step (columnTolerance_nonneg A) (hskip k (by omega)) (by omega) (by omega)

end Runs

section Clearing

variable {A B : Mat K} {τ : ℝ}

/-- The difference of two matrices of one shape. -/
noncomputable def Mat.sub (A B : Mat K) : Mat K :=
  Mat.ofFn A.rows A.cols fun i j => A.get i j - B.get i j

/-- The squared Frobenius norm of a difference, column by column. -/
theorem Mat.frobeniusNorm_sub_sq (A B : Mat K) :
    (A.sub B).frobeniusNorm ^ 2 = ∑ c : Fin A.cols, ∑ i : Fin A.rows,
      ‖(A.toMatrix A.rows A.cols - B.toMatrix A.rows A.cols) i c‖ ^ 2 := by
  rw [frobeniusNorm_sq (Array.size_ofFn), sub, rows_ofFn, cols_ofFn, Finset.sum_comm,
    ← Fin.sum_univ_eq_sum_range (fun j => ∑ i ∈ Finset.range A.rows, ‖_‖ ^ 2)]
  refine Finset.sum_congr rfl fun c _ => ?_
  rw [← Fin.sum_univ_eq_sum_range]
  refine Finset.sum_congr rfl fun i _ => ?_
  rw [get_ofFn _ i.isLt c.isLt]
  rfl

/-- Matrices whose difference has norm zero have the same entries. -/
theorem Mat.toMatrix_eq_of_frobeniusNorm_sub (h : (A.sub B).frobeniusNorm = (0 : ℝ)) :
    B.toMatrix A.rows A.cols = A.toMatrix A.rows A.cols := by
  have hsum := frobeniusNorm_sub_sq A B
  rw [h, zero_pow two_ne_zero, eq_comm, Finset.sum_eq_zero_iff_of_nonneg
    (fun c _ => Finset.sum_nonneg fun i _ => sq_nonneg _)] at hsum
  ext i c
  have hcolumn := hsum c (Finset.mem_univ c)
  rw [Finset.sum_eq_zero_iff_of_nonneg fun i _ => sq_nonneg _] at hcolumn
  have hentry := hcolumn i (Finset.mem_univ i)
  rw [sq_eq_zero_iff, norm_eq_zero] at hentry
  exact (sub_eq_zero.mp hentry).symm

/-- Clearing the entries below the diagonal changes the product of the factors by no more than the
residue of each column. -/
theorem ResidueProgress.frobeniusNorm_sub_le {k : ℕ}
    (h : ResidueProgress A τ (factorSteps (R := ℝ) A) k) (hτ : 0 ≤ τ)
    (hk : k = min A.rows A.cols) :
    let F := householderQR (R := ℝ) A .complete
    (A.sub (F.q.mul F.r)).frobeniusNorm ≤ √k * τ := by
  intro F
  let Q := F.q.toMatrix A.rows A.rows
  let R := (factorSteps (R := ℝ) A).r.toMatrix A.rows A.cols
  let U := F.r.toMatrix A.rows A.cols
  have hdifference : A.toMatrix A.rows A.cols - (F.q.mul F.r).toMatrix A.rows A.cols =
      Q * (R - U) := by
    have hbefore : Q * R = A.toMatrix A.rows A.cols := h.product
    have hafter : (F.q.mul F.r).toMatrix A.rows A.cols = Q * U :=
      Mat.toMatrix_mul (A := F.q) h.rows_q h.cols_q rfl
    rw [hafter, ← hbefore, Matrix.mul_sub]
  have hresidue : ∀ (c : Fin A.cols) (i : Fin A.rows),
      ‖(R - U) i c‖ ^ 2 = if (c : ℕ) < i then ‖R i c‖ ^ 2 else 0 := by
    intro c i
    have hentry : U i c = if (c : ℕ) < i then 0 else R i c := Mat.get_ofFn _ i.isLt c.isLt
    rw [Matrix.sub_apply, hentry]
    split
    · rw [sub_zero]
    · rw [sub_self, norm_zero, zero_pow two_ne_zero]
  have hcolumn : ∀ c : Fin A.cols, ∑ i, ‖(Q * (R - U)) i c‖ ^ 2 ≤
      if (c : ℕ) < k then τ ^ 2 else 0 := by
    intro c
    have hlength : ∑ i, ‖(Q * (R - U)) i c‖ ^ 2 = ∑ i, ‖(R - U) i c‖ ^ 2 :=
      sum_norm_unitary_mulVec h.unitary fun i => (R - U) i c
    rw [hlength]
    simp only [hresidue]
    rw [← Finset.sum_filter]
    split
    · next hc => exact h.residue c hc
    · next hc =>
      -- behind the last row there is nothing below the diagonal
      refine (Finset.sum_eq_zero fun i hi => ?_).le
      have := mem_rowsBelow.mp hi
      omega
  refine abs_le_of_sq_le_sq' ?_ (mul_nonneg (Real.sqrt_nonneg _) hτ) |>.2
  rw [Mat.frobeniusNorm_sub_sq, hdifference, mul_pow, Real.sq_sqrt (Nat.cast_nonneg _)]
  calc ∑ c : Fin A.cols, ∑ i : Fin A.rows, ‖(Q * (R - U)) i c‖ ^ 2
      ≤ ∑ c : Fin A.cols, if (c : ℕ) < k then τ ^ 2 else 0 := Finset.sum_le_sum fun c _ => hcolumn c
    _ = ∑ c ∈ Finset.range A.cols with c < k, τ ^ 2 := by
        rw [Fin.sum_univ_eq_sum_range (fun c => if c < k then τ ^ 2 else 0), Finset.sum_filter]
    _ ≤ k * τ ^ 2 := by
        rw [Finset.sum_const, nsmul_eq_mul]
        refine mul_le_mul_of_nonneg_right (Nat.cast_le.mpr ?_) (sq_nonneg τ)
        refine (Finset.card_le_card fun c hc => ?_).trans_eq (Finset.card_range k)
        exact Finset.mem_range.mpr (Finset.mem_filter.mp hc).2

end Clearing

section Divisions

variable {divide : K → K → K}

/-- The factorisation with another division. -/
noncomputable def householderQRWith (divide : K → K → K) (A : Mat K) (wanted : Factors) : QR K :=
  letI : Div K := ⟨divide⟩
  householderQR (R := ℝ) A wanted

/-- The reflector of a vector with a norm other than zero does not divide by zero: the absolute
value of the first entry is a divisor only if the entry is not zero, and the vector that is
normalised is not zero. -/
theorem reflector_with (hdivide : ∀ x y, y ≠ 0 → divide x y = x / y) {x : Array K}
    (hnorm : (euclideanNorm x : ℝ) ≠ 0) :
    (letI : Div K := ⟨divide⟩; reflector (R := ℝ) x) = reflector (R := ℝ) x := by
  let phase (divide : K → K → K) : K :=
    if x.getD 0 0 == 0 then 1 else divide (x.getD 0 0) (‖x.getD 0 0‖ : K)
  let moved (p : K) : Array K := x.modify 0 (· + p * ((euclideanNorm x : ℝ) : K))
  let u := moved (phase (· / ·))
  have hphase : phase divide = phase (· / ·) := by
    by_cases hzero : x.getD 0 0 = 0
    · exact (if_pos (beq_iff_eq.mpr hzero)).trans (if_pos (beq_iff_eq.mpr hzero)).symm
    · have hdivisor : (‖x.getD 0 0‖ : K) ≠ 0 :=
        RCLike.ofReal_ne_zero.mpr (norm_ne_zero_iff.mpr hzero)
      simp only [phase, hdivide _ _ hdivisor]
  have hlength : ((euclideanNorm u : ℝ) : K) ≠ 0 := by
    intro hzero
    have hpos : 0 < x.size := by
      refine Nat.pos_of_ne_zero fun hsize => hnorm ?_
      rw [euclideanNorm_eq_sqrt, hsize, Finset.sum_range_zero, Real.sqrt_zero]
    obtain ⟨hunit, -⟩ := reflector_spec (m := x.size) hpos (Nat.sub_zero _).symm hnorm
    have hreflector : reflector (R := ℝ) x = u.map (· / ((euclideanNorm u : ℝ) : K)) := rfl
    rw [hreflector, placedFrom_map_div, hzero, GroupWithZero.inv_zero, zero_smul, star_zero,
      zero_dotProduct] at hunit
    exact zero_ne_one hunit
  have hwith : (letI : Div K := ⟨divide⟩; reflector (R := ℝ) x) =
      (moved (phase divide)).map
        (divide · ((euclideanNorm (moved (phase divide)) : ℝ) : K)) := rfl
  rw [hwith, hphase]
  exact congrArg u.map (funext fun y => hdivide y _ hlength)

/-- No step divides by zero: it builds a reflector only for a vector with a norm other than zero. -/
theorem factorStep_with (hdivide : ∀ x y, y ≠ 0 → divide x y = x / y) (tol : ℝ) (F : QR K) (j : ℕ) :
    (letI : Div K := ⟨divide⟩; factorStep tol F j) = factorStep tol F j := by
  by_cases hskip : (euclideanNorm (belowDiagonal F.r j) == 0 ||
      decide (euclideanNorm (belowDiagonal F.r j) ≤ tol)) = true
  · exact (if_pos hskip).trans (if_pos hskip).symm
  · have hnorm : (euclideanNorm (belowDiagonal F.r j) : ℝ) ≠ 0 := by
      rw [Bool.or_eq_true, not_or, beq_iff_eq] at hskip
      exact hskip.1
    have hstep : (letI : Div K := ⟨divide⟩; factorStep tol F j) =
        ⟨reflectCols (R := ℝ) (letI : Div K := ⟨divide⟩;
            reflector (R := ℝ) (belowDiagonal F.r j)) j F.q,
          reflectRows (R := ℝ) (letI : Div K := ⟨divide⟩;
            reflector (R := ℝ) (belowDiagonal F.r j)) j F.r⟩ := if_neg hskip
    rw [hstep, reflector_with hdivide hnorm]
    exact (if_neg hskip).symm

/-- The factorisation does not divide by zero. -/
theorem householderQRWith_eq (hdivide : ∀ x y, y ≠ 0 → divide x y = x / y) (A : Mat K)
    (wanted : Factors) : householderQRWith divide A wanted = householderQR (R := ℝ) A wanted := by
  have hstep : (letI : Div K := ⟨divide⟩; factorStep (K := K) (columnTolerance A)) =
      factorStep (columnTolerance A) :=
    funext fun F => funext fun j => factorStep_with hdivide (columnTolerance A) F j
  have hsteps : (letI : Div K := ⟨divide⟩; factorSteps (R := ℝ) A) = factorSteps (R := ℝ) A :=
    congrArg (fun step : QR K → ℕ → QR K =>
      (List.range (min A.rows A.cols)).foldl step ⟨Mat.identity A.rows, A⟩) hstep
  cases wanted with
  | complete =>
    change QR.mk _ _ = QR.mk _ _
    rw [hsteps]
  | reduced =>
    change QR.mk _ _ = QR.mk _ _
    rw [hsteps]

end Divisions

section Modes

variable {Q R : Mat K} {k : ℕ}

/-- Columns of a unitary matrix are orthonormal. -/
theorem leftCols_orthonormal {m : ℕ} (hrows : Q.rows = m) (hcols : Q.cols = m)
    (hQ : Q.toMatrix m m ∈ unitaryGroup (Fin m) K) (hk : k ≤ m) :
    ((Q.leftCols k).toMatrix m k)ᴴ * (Q.leftCols k).toMatrix m k = 1 := by
  have hleft : (Q.leftCols k).toMatrix m k = (Q.toMatrix m m).submatrix id (Fin.castLE hk) := by
    ext i c
    exact Mat.get_leftCols Q (by omega) c.isLt (by omega)
  rw [hleft, conjTranspose_submatrix, ← submatrix_mul _ _ _ _ _ Function.bijective_id,
    ← star_eq_conjTranspose, mem_unitaryGroup_iff'.mp hQ,
    submatrix_one _ (Fin.castLE_injective hk)]

/-- Rows that are zero do not matter for a product, nor do the columns that meet them. -/
theorem leftCols_mul_topRows (hshape : Q.cols = R.rows) (hk : k ≤ R.rows)
    (hzero : ∀ l j, k ≤ l → l < R.rows → j < R.cols → R.get l j = 0) :
    (Q.leftCols k).mul (R.topRows k) = Q.mul R := by
  refine Mat.eq_of_get_eq Array.size_ofFn Array.size_ofFn rfl rfl fun i hi j hj => ?_
  have hcols : (Q.leftCols k).cols = k := Nat.min_eq_left (hk.trans_eq hshape.symm)
  rw [Mat.get_mul (Q.leftCols k) (R.topRows k) hi hj, Mat.get_mul Q R hi hj, hcols, hshape]
  calc ∑ l ∈ Finset.range k, (Q.leftCols k).get i l * (R.topRows k).get l j
      = ∑ l ∈ Finset.range k, Q.get i l * R.get l j := by
        refine Finset.sum_congr rfl fun l hl => ?_
        have hl := Finset.mem_range.mp hl
        rw [Mat.get_leftCols Q hi hl (by omega), Mat.get_topRows R hl (by omega) hj]
    _ = ∑ l ∈ Finset.range R.rows, Q.get i l * R.get l j := by
        refine Finset.sum_subset (Finset.range_subset_range.mpr hk) fun l hl hout => ?_
        rw [Finset.mem_range] at hl hout
        rw [hzero l j (by omega) hl hj, mul_zero]

end Modes

section Factors

/-- Every column that the factorisation of a matrix skips has only zeros at and below the
diagonal. -/
def SkipsOnlyZeros (A : Mat K) : Prop :=
  ∀ j < min A.rows A.cols,
    euclideanNorm (belowDiagonal (factorState A j).r j) ≤ columnTolerance A →
      ∀ i, j ≤ i → i < A.rows → (factorState A j).r.get i j = 0

/-- Two factors whose product comes close to a matrix, the first one with the given number of
columns. -/
structure IsNearFactorization (A : Mat K) (width : ℕ) (F : QR K) : Prop where
  /-- The first factor has the rows of the matrix. -/
  rows_q : F.q.rows = A.rows
  /-- The first factor has the number of columns asked for. -/
  cols_q : F.q.cols = width
  /-- The second factor fits behind the first one. -/
  rows_r : F.r.rows = width
  /-- The second factor has the columns of the matrix. -/
  cols_r : F.r.cols = A.cols
  /-- The columns of the first factor are orthonormal. -/
  orthonormal : (F.q.toMatrix A.rows width)ᴴ * F.q.toMatrix A.rows width = 1
  /-- The second factor is zero below the diagonal. -/
  triangular : ∀ i j, j < i → F.r.get i j = 0
  /-- The product misses the matrix by the tolerance in each column at most. -/
  error_le : (A.sub (F.q.mul F.r)).frobeniusNorm ≤
    negligible ℝ * √(min A.rows A.cols : ℕ) * A.frobeniusNorm
  /-- The product is the matrix if only zeros were skipped. -/
  exact : SkipsOnlyZeros A → (F.q.mul F.r).toMatrix A.rows A.cols = A.toMatrix A.rows A.cols

variable (A : Mat K)

/-- The length of the part of a column at and below the diagonal vanishes with its entries. -/
theorem euclideanNorm_belowDiagonal_eq_zero {B : Mat K} {j : ℕ}
    (h : ∀ i, j ≤ i → i < B.rows → B.get i j = 0) :
    (euclideanNorm (belowDiagonal B j) : ℝ) = 0 := by
  rw [euclideanNorm_eq_sqrt, Finset.sum_eq_zero, Real.sqrt_zero]
  intro i hi
  rw [size_belowDiagonal, Finset.mem_range] at hi
  rw [belowDiagonal, getD_ofFn, dif_pos hi]
  simp only
  rw [h (j + i) (Nat.le_add_right j i) (by omega), norm_zero, zero_pow two_ne_zero]

/-- The complete factorisation has the tolerance as its residue in each column. -/
theorem residueProgress_factorSteps :
    ResidueProgress A (columnTolerance A) (factorSteps (R := ℝ) A) (min A.rows A.cols) :=
  residueProgress_factorState (min_le_left _ _) (min_le_right _ _) fun _ _ => id

/-- The complete factorisation without a residue, if only zeros are skipped. -/
theorem residueProgress_zero {A : Mat K} (h : SkipsOnlyZeros A) :
    ResidueProgress A 0 (factorSteps (R := ℝ) A) (min A.rows A.cols) := by
  refine residueProgress_factorState (min_le_left _ _) (min_le_right _ _) fun j hj hskip => ?_
  have hrows : (factorState A j).r.rows = A.rows :=
    (residueProgress_factorState (τ := columnTolerance A) (k := j) (by omega) (by omega)
      fun _ _ => id).rows_r
  exact (euclideanNorm_belowDiagonal_eq_zero fun i hji hi =>
    h j hj hskip i hji (hi.trans_eq hrows)).le

/-- The complete factors come close to the matrix, and the first one is unitary. -/
theorem isNearFactorization_complete :
    IsNearFactorization A A.rows (householderQR (R := ℝ) A .complete) := by
  have hsteps := residueProgress_factorSteps A
  refine ⟨hsteps.rows_q, hsteps.cols_q, rfl, rfl, ?_, fun i j hji => ?_, ?_, fun hzeros => ?_⟩
  · exact mem_unitaryGroup_iff'.mp hsteps.unitary
  · rw [householderQR, Mat.get_ofFn_eq, if_pos hji, ite_self]
  · refine (hsteps.frobeniusNorm_sub_le (columnTolerance_nonneg A) rfl).trans ?_
    rw [mul_comm (negligible ℝ), mul_assoc]
    exact mul_le_mul_of_nonneg_left (columnTolerance_le A) (Real.sqrt_nonneg _)
  · have hle := (residueProgress_zero hzeros).frobeniusNorm_sub_le le_rfl rfl
    rw [mul_zero] at hle
    exact Mat.toMatrix_eq_of_frobeniusNorm_sub (hle.antisymm (euclideanNorm_nonneg _))

/-- The reduced factors are parts of the complete ones. Their product is the same, because the rows
left out of the second factor lie below its diagonal. -/
theorem householderQR_reduced_mul :
    let F := householderQR (R := ℝ) A .complete
    let G := householderQR (R := ℝ) A .reduced
    G.q.mul G.r = F.q.mul F.r := by
  intro F G
  have hF := isNearFactorization_complete A
  refine leftCols_mul_topRows (hF.cols_q.trans hF.rows_r.symm) (min_le_left _ _)
    fun l j hl hlr hj => hF.triangular l j ?_
  have hlr : l < A.rows := hlr
  have hj : j < A.cols := hj
  omega

/-- The reduced factors come close to the matrix. -/
theorem isNearFactorization_reduced :
    IsNearFactorization A (min A.rows A.cols) (householderQR (R := ℝ) A .reduced) := by
  have hF := isNearFactorization_complete A
  have hsteps := residueProgress_factorSteps A
  have hmul := householderQR_reduced_mul A
  have hrows : (householderQR (R := ℝ) A .complete).r.rows = A.rows := rfl
  refine ⟨hF.rows_q, ?_, ?_, rfl, ?_, fun i j hji => ?_, ?_, fun hzeros => ?_⟩
  · exact Nat.min_eq_left ((min_le_left _ _).trans_eq hsteps.cols_q.symm)
  · exact Nat.min_eq_left (min_le_left _ _)
  · exact leftCols_orthonormal hsteps.rows_q hsteps.cols_q hsteps.unitary (min_le_left _ _)
  · change ((householderQR (R := ℝ) A .complete).r.topRows _).get i j = 0
    rw [Mat.topRows, Mat.get_ofFn_eq]
    split
    · exact hF.triangular i j hji
    · rfl
  · rw [hmul]
    exact hF.error_le
  · rw [hmul]
    exact hF.exact hzeros

/-- The factorisation never divides by zero, so it is the same for every way to continue the
division there. In both modes the first factor has orthonormal columns, the second one is zero below
the diagonal, and the product misses the matrix by at most the tolerance in each column, and not at
all if only zeros were skipped. The complete first factor is unitary; the reduced factors are its
leading columns and the leading rows of the second factor, with the same product. -/
theorem householderQR_near (A : Mat K) :
    (∀ divide : K → K → K, (∀ x y, y ≠ 0 → divide x y = x / y) → ∀ wanted,
      householderQRWith divide A wanted = householderQR (R := ℝ) A wanted) ∧
    let k := min A.rows A.cols
    let F := householderQR (R := ℝ) A .complete
    let G := householderQR (R := ℝ) A .reduced
    (IsNearFactorization A A.rows F ∧ F.q.toMatrix A.rows A.rows ∈ unitaryGroup (Fin A.rows) K) ∧
    IsNearFactorization A k G ∧
    G.q = F.q.leftCols k ∧ G.r = F.r.topRows k ∧ G.q.mul G.r = F.q.mul F.r := by
  refine ⟨fun divide hdivide => householderQRWith_eq hdivide A, ⟨?_, ?_⟩, ?_, rfl, rfl, ?_⟩
  · exact isNearFactorization_complete A
  · exact (residueProgress_factorSteps A).unitary
  · exact isNearFactorization_reduced A
  · exact householderQR_reduced_mul A

/-- The column with the entries three and four is not skipped, so it is the product of its reduced
factors, also when dividing by zero gives seven. -/
theorem householderQR_near_column :
    (∀ x y : ℝ, y ≠ 0 → (if y = 0 then 7 else x / y) = x / y) ∧
      ∃ F : QR ℝ, householderQR (R := ℝ) (⟨2, 1, #[3, 4]⟩ : Mat ℝ) .reduced = F ∧
        householderQRWith (fun x y : ℝ => if y = 0 then 7 else x / y) ⟨2, 1, #[3, 4]⟩ .reduced = F ∧
        (F.q.mul F.r).get 0 0 = 3 ∧ (F.q.mul F.r).get 1 0 = 4 := by
  let A : Mat ℝ := ⟨2, 1, #[3, 4]⟩
  have hdivide : ∀ x y : ℝ, y ≠ 0 → (if y = 0 then 7 else x / y) = x / y :=
    fun x y hy => if_neg hy
  have hnorm : A.frobeniusNorm = (5 : ℝ) := by
    rw [Mat.frobeniusNorm, euclideanNorm_eq_sqrt]
    have hsum : ∑ i ∈ Finset.range A.entries.size, ‖A.entries.getD i 0‖ ^ 2 = (5 : ℝ) ^ 2 := by
      simp [A, Finset.sum_range_succ]
      norm_num
    rw [hsum, Real.sqrt_sq (by norm_num)]
  have hkept : ¬euclideanNorm (belowDiagonal (factorState A 0).r 0) ≤ columnTolerance A := by
    have hcolumn : belowDiagonal (factorState A 0).r 0 = A.entries := by
      refine Array.ext rfl fun i hi _ => ?_
      obtain rfl | rfl : i = 0 ∨ i = 1 := by
        rw [size_belowDiagonal] at hi
        change i < 2 at hi
        omega
      all_goals rfl
    have hnonempty : A.rows * A.cols ≠ 0 := two_ne_zero
    have htolerance : negligible ℝ * (5 : ℝ) < 5 := by norm_num [negligible]
    rw [hcolumn, columnTolerance, if_neg hnonempty, hnorm, not_le]
    exact htolerance.trans_eq hnorm.symm
  obtain ⟨hwith, -, ⟨hG, -⟩⟩ := householderQR_near A
  have hproduct := hG.exact fun j hj hle => by
    obtain rfl : j = 0 := by simp only [A] at hj; omega
    exact absurd hle hkept
  refine ⟨hdivide, _, rfl, hwith _ hdivide .reduced, ?_, ?_⟩
  · exact congrFun (congrFun hproduct 0) 0
  · exact congrFun (congrFun hproduct 1) 0

end Factors

end PolynomialEquations
