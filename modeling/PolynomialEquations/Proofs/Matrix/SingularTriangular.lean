import PolynomialEquations.Proofs.Matrix.BackSubstitution
import Mathlib.LinearAlgebra.Matrix.Block
import Mathlib.LinearAlgebra.Matrix.ToLinearEquiv

/-!
# Back substitution in a singular system

Back substitution ends at the lowest zero pivot, and what it reports there depends on the right side
of that row alone. Whether the system has a solution depends on what the rows below leave of that
right side, and on the rows above if these have zero pivots as well. Only when the row of the pivot
is zero and no other pivot is, the report says what is true of the system.
-/

namespace PolynomialEquations

section Triangular

variable {F : Type} [Field F] {n k : ℕ} {M : Matrix (Fin n) (Fin n) F}
  {B X Y : Matrix (Fin n) (Fin k) F} {i : Fin n}

/-- The rows of an upper triangular system whose pivot is not zero have a common solution. -/
theorem exists_solves_pivot_rows (hM : M.IsUpperTriangular) (B : Matrix (Fin n) (Fin k) F) :
    ∃ Y : Matrix (Fin n) (Fin k) F, ∀ r, M r r ≠ 0 → (M * Y) r = B r := by
  classical
  -- a one in place of every zero pivot makes the matrix regular and does not touch the other rows
  let D : Matrix (Fin n) (Fin n) F := Matrix.diagonal fun r => if M r r = 0 then 1 else 0
  have hdet : (M + D).det ≠ 0 := by
    rw [Matrix.det_of_isUpperTriangular (hM.add (Matrix.blockTriangular_diagonal _)),
      Finset.prod_ne_zero_iff]
    intro r _
    by_cases hpivot : M r r = 0 <;> simp [hpivot]
  refine ⟨(M + D)⁻¹ * B, fun r hpivot => ?_⟩
  have hsolves : (M + D) * ((M + D)⁻¹ * B) = B :=
    Matrix.mul_nonsing_inv_cancel_left _ _ (isUnit_iff_ne_zero.mpr hdet)
  rw [Matrix.add_mul] at hsolves
  funext c
  have hentry := congrFun (congrFun hsolves r) c
  rwa [Matrix.add_apply, Matrix.diagonal_mul, if_neg hpivot, zero_mul, add_zero] at hentry

/-- Below a row the solutions are determined by the pivots below it. -/
theorem eq_of_rows_below_eq (hM : M.IsUpperTriangular) (hpivots : ∀ r, i < r → M r r ≠ 0)
    (h : ∀ r, i < r → (M * X) r = (M * Y) r) (r : Fin n) (hr : i < r) : X r = Y r := by
  -- from the last row up: all entries behind the pivot meet rows that agree already
  induction r using WellFoundedGT.induction with
  | ind r ih =>
    funext c
    have hentry := congrFun (h r hr) c
    have hterms : ∀ t, t ≠ r → M r t * X t c = M r t * Y t c := by
      intro t hne
      rcases lt_or_gt_of_ne hne with hlt | hgt
      · rw [hM hlt, zero_mul, zero_mul]
      · rw [ih t hgt (hr.trans hgt)]
    rw [Matrix.mul_apply, Matrix.mul_apply, ← Finset.add_sum_erase _ _ (Finset.mem_univ r),
      ← Finset.add_sum_erase _ (fun t => M r t * Y t c) (Finset.mem_univ r),
      Finset.sum_congr rfl fun t ht => hterms t (Finset.ne_of_mem_erase ht)] at hentry
    exact mul_left_cancel₀ (hpivots r hr) (add_right_cancel hentry)

/-- The row of a zero pivot gives the same value to all solutions of the rows below. -/
theorem mul_row_eq_of_rows_below_eq (hM : M.IsUpperTriangular) (hzero : M i i = 0)
    (hpivots : ∀ r, i < r → M r r ≠ 0) (h : ∀ r, i < r → (M * X) r = (M * Y) r) :
    (M * X) i = (M * Y) i := by
  funext c
  rw [Matrix.mul_apply, Matrix.mul_apply]
  refine Finset.sum_congr rfl fun t _ => ?_
  rcases lt_trichotomy t i with hlt | rfl | hgt
  · rw [hM hlt, zero_mul, zero_mul]
  · rw [hzero, zero_mul, zero_mul]
  · rw [eq_of_rows_below_eq hM hpivots h t hgt]

/-- A zero pivot leaves no system with exactly one solution. -/
theorem infinite_solutions [Infinite F] (hM : M.IsUpperTriangular) (hzero : M i i = 0) (hk : 0 < k)
    (hX : M * X = B) : {X : Matrix (Fin n) (Fin k) F | M * X = B}.Infinite := by
  have hdet : M.det = 0 := by
    rw [Matrix.det_of_isUpperTriangular hM]
    exact Finset.prod_eq_zero (Finset.mem_univ i) hzero
  obtain ⟨v, hv, hkernel⟩ := Matrix.exists_mulVec_eq_zero_iff.mpr hdet
  obtain ⟨j, hj⟩ := Function.ne_iff.mp hv
  let Z : Matrix (Fin n) (Fin k) F := Matrix.of fun r _ => v r
  have hZ : M * Z = 0 := by
    ext r c
    exact congrFun hkernel r
  refine Set.infinite_of_injective_forall_mem (f := fun t : F => X + t • Z) ?_ fun t => ?_
  · intro t u htu
    have hsmul : t • Z = u • Z := add_left_cancel htu
    have hentry : t * v j = u * v j := congrFun (congrFun hsmul j) ⟨0, hk⟩
    exact mul_right_cancel₀ hj hentry
  · rw [Set.mem_ofPred_eq, Matrix.mul_add, Matrix.mul_smul, hZ, smul_zero, add_zero, hX]

end Triangular

section Report

variable {K : Type} [RCLike K] {U C : Mat K} {n i : ℕ} {e : Failure}

/-- What is reported for row `i`: no solution when the right side of that row is not zero, and
infinitely many when it is. -/
def IsReport (C : Mat K) (i : ℕ) (e : Failure) : Prop :=
  (e = .inconsistent ∧ ∃ c < C.cols, C.get i c ≠ 0) ∨
    (e = .rankDeficient ∧ ∀ c < C.cols, C.get i c = 0)

theorem IsReport.exists_ne_zero (h : IsReport C i .inconsistent) : ∃ c < C.cols, C.get i c ≠ 0 :=
  h.elim And.right fun hrank => nomatch hrank.1

theorem IsReport.eq_zero (h : IsReport C i .rankDeficient) : ∀ c < C.cols, C.get i c = 0 :=
  h.elim (fun hnone => nomatch hnone.1) And.right

/-- The recursion ends at the lowest zero pivot. -/
theorem substituteRows_of_zero_pivot (hrows : U.rows = n) (hcols : U.cols = n) {tol : ℝ}
    (htol : 0 ≤ tol) (hzero : U.get i i = 0)
    (hright : ∀ c < C.cols, C.get i c = 0 ∨ tol < ‖C.get i c‖) {m : ℕ} (him : i < m)
    (hpivots : ∀ r, i < r → r < m → tol < ‖U.get r r‖)
    {below : List (Array K)} (hlength : m + below.length = n) :
    ∃ e, substituteRows U C tol m below = .error e ∧ IsReport C i e := by
  induction m generalizing below with
  | zero => exact absurd him (Nat.not_lt_zero i)
  | succ m ih =>
    rw [substituteRows, if_neg (by omega)]
    rcases (Nat.lt_succ_iff.mp him).eq_or_lt with rfl | hlt
    · have hsmall : Scalar.modulus (U.get i i) ≤ tol := by
        rw [hzero, scalar_modulus, norm_zero]
        exact htol
      rw [if_pos hsmall]
      split
      · next hany =>
        rw [List.any_eq_true] at hany
        obtain ⟨c, hc, hlarge⟩ := hany
        refine ⟨.inconsistent, rfl, Or.inl ⟨rfl, c, List.mem_range.mp hc, ?_⟩⟩
        exact norm_pos_iff.mp (htol.trans_lt (of_decide_eq_true hlarge))
      · next hnone =>
        refine ⟨.rankDeficient, rfl, Or.inr ⟨rfl, fun c hc => ?_⟩⟩
        refine (hright c hc).resolve_right fun hlarge => hnone ?_
        exact List.any_eq_true.mpr ⟨c, List.mem_range.mpr hc, decide_eq_true hlarge⟩
    · have hpivot : ¬Scalar.modulus (U.get m m) ≤ tol :=
        not_le_of_gt (hpivots m hlt (Nat.lt_succ_self m))
      rw [if_neg hpivot, if_neg (by omega)]
      exact ih hlt (fun r hr hrm => hpivots r hr (by omega)) (by rw [List.length_cons]; omega)

/-- A square upper triangular system whose diagonal entries and right sides are zero or exceed the
tolerance for pivots. -/
structure IsTriangularSystem (U C : Mat K) (n : ℕ) : Prop where
  /-- The matrix is square. -/
  rows_eq : U.rows = n
  /-- The matrix is square. -/
  cols_eq : U.cols = n
  /-- There is a right side for every row. -/
  rows_right_eq : C.rows = n
  /-- There is nothing below the diagonal. -/
  upper : ∀ i k, k < i → U.get i k = 0
  /-- No pivot is taken for zero that is not. -/
  pivot : ∀ r < n, U.get r r = 0 ∨ (U.tolerance : ℝ) < ‖U.get r r‖
  /-- No right side is taken for zero that is not. -/
  right : ∀ r < n, ∀ c < C.cols, C.get r c = 0 ∨ (U.tolerance : ℝ) < ‖C.get r c‖

/-- The pivot of row `i` is the lowest one that is zero. -/
def IsLowestZeroPivot (U : Mat K) (i : Fin n) : Prop :=
  U.get i i = 0 ∧ ∀ r, i < r → U.get r r ≠ 0

/-- The solutions `X` of `U X = C` for a square matrix of size `n`. -/
def Mat.solutions (U C : Mat K) (n : ℕ) : Set (Matrix (Fin n) (Fin C.cols) K) :=
  {X : Matrix (Fin n) (Fin C.cols) K | U.toMatrix n n * X = C.toMatrix n C.cols}

/-- A common solution of the rows below row `i`, by which row `i` decides whether the system has a
solution, unless a row above has a zero pivot. -/
structure DecidesRow (U C : Mat K) (i : Fin n) (Y : Matrix (Fin n) (Fin C.cols) K) : Prop where
  /-- The rows below are solved. -/
  below_eq : ∀ r, i < r → (U.toMatrix n n * Y) r = C.toMatrix n C.cols r
  /-- There is no solution if the row is not solved. -/
  solutions_eq : (U.toMatrix n n * Y) i ≠ C.toMatrix n C.cols i → U.solutions C n = ∅
  /-- There is one if the row is solved and the rows above have pivots. -/
  solutions_nonempty : (U.toMatrix n n * Y) i = C.toMatrix n C.cols i → (∀ r < i, U.get r r ≠ 0) →
    (U.solutions C n).Nonempty

namespace IsTriangularSystem

variable {i : Fin n}

theorem isUpperTriangular (h : IsTriangularSystem U C n) : (U.toMatrix n n).IsUpperTriangular :=
  fun r t htr => h.upper r t htr

/-- A zero pivot is reported with the right side of its row. -/
theorem exists_report (h : IsTriangularSystem U C n) (hi : IsLowestZeroPivot U i) :
    ∃ e, backSubstitute (R := ℝ) U C = .error e ∧ IsReport C i e := by
  have hpivots : ∀ r, (i : ℕ) < r → r < n → (U.tolerance : ℝ) < ‖U.get r r‖ := fun r hr hrn =>
    (h.pivot r hrn).resolve_left (hi.2 ⟨r, hrn⟩ hr)
  have hempty : n + ([] : List (Array K)).length = n := rfl
  obtain ⟨e, herror, hreport⟩ := substituteRows_of_zero_pivot h.rows_eq h.cols_eq U.tolerance_nonneg
    hi.1 (h.right i i.isLt) i.isLt hpivots hempty
  refine ⟨e, ?_, hreport⟩
  rw [backSubstitute, h.rows_right_eq, herror]
  rfl

/-- A right side in the row of the lowest zero pivot is reported as one without solution. -/
theorem backSubstitute_eq_inconsistent (h : IsTriangularSystem U C n) (hi : IsLowestZeroPivot U i)
    {c : ℕ} (hc : c < C.cols) (hne : C.get i c ≠ 0) :
    backSubstitute (R := ℝ) U C = .error .inconsistent := by
  obtain ⟨e, herror, hreport⟩ := h.exists_report hi
  rcases hreport with ⟨rfl, -⟩ | ⟨-, hzero⟩
  · exact herror
  · exact absurd (hzero c hc) hne

/-- Without a right side in that row infinitely many solutions are reported. -/
theorem backSubstitute_eq_rankDeficient (h : IsTriangularSystem U C n)
    (hi : IsLowestZeroPivot U i) (hzero : ∀ c < C.cols, C.get i c = 0) :
    backSubstitute (R := ℝ) U C = .error .rankDeficient := by
  obtain ⟨e, herror, hreport⟩ := h.exists_report hi
  rcases hreport with ⟨-, c, hc, hne⟩ | ⟨rfl, -⟩
  · exact absurd (hzero c hc) hne
  · exact herror

/-- Nothing but a zero pivot is reported. -/
theorem exists_lowest_zero_pivot (h : IsTriangularSystem U C n)
    (herror : backSubstitute (R := ℝ) U C = .error e) : ∃ i : Fin n, IsLowestZeroPivot U i := by
  classical
  let zeros := Finset.univ.filter fun r : Fin n => U.get r r = 0
  have hzeros : zeros.Nonempty := by
    by_contra hempty
    obtain ⟨X, hok, -⟩ := exists_backSubstitute h.rows_eq h.cols_eq h.rows_right_eq
      (fun r hr => (h.pivot r hr).resolve_left fun hzero => hempty
        ⟨⟨r, hr⟩, Finset.mem_filter.mpr ⟨Finset.mem_univ _, hzero⟩⟩) fun i _ => h.upper i
    rw [hok] at herror
    cases herror
  refine ⟨zeros.max' hzeros, (Finset.mem_filter.mp (zeros.max'_mem hzeros)).2, fun r hr hzero => ?_⟩
  exact hr.not_ge (zeros.le_max' r (Finset.mem_filter.mpr ⟨Finset.mem_univ r, hzero⟩))

/-- The rows below the lowest zero pivot have a solution that decides what becomes of its row. -/
theorem exists_decidesRow (h : IsTriangularSystem U C n) (hi : IsLowestZeroPivot U i) :
    ∃ Y, DecidesRow U C i Y := by
  obtain ⟨Y, hY⟩ := exists_solves_pivot_rows h.isUpperTriangular (C.toMatrix n C.cols)
  have hbelow : ∀ r, i < r → (U.toMatrix n n * Y) r = C.toMatrix n C.cols r :=
    fun r hr => hY r (hi.2 r hr)
  refine ⟨Y, hbelow, fun hne => ?_, fun heq habove => ⟨Y, ?_⟩⟩
  · rw [Set.eq_empty_iff_forall_notMem]
    intro X hX
    have hsame : (U.toMatrix n n * Y) i = (U.toMatrix n n * X) i :=
      mul_row_eq_of_rows_below_eq h.isUpperTriangular hi.1 hi.2 fun r hr =>
        (hbelow r hr).trans (congrFun hX r).symm
    exact hne (hsame.trans (congrFun hX i))
  · funext r
    rcases lt_trichotomy r i with hlt | rfl | hgt
    · exact hY r (habove r hlt)
    · exact heq
    · exact hbelow r hgt

/-- A solution is never the only one. -/
theorem infinite_of_nonempty (h : IsTriangularSystem U C n) (hi : IsLowestZeroPivot U i)
    (hcols : 0 < C.cols) (hsolution : (U.solutions C n).Nonempty) : (U.solutions C n).Infinite :=
  infinite_solutions h.isUpperTriangular hi.1 hcols hsolution.some_mem

/-- A zero row to the right of a zero pivot takes every value of the unknown to zero. -/
theorem mul_row_eq_zero (h : IsTriangularSystem U C n) (hi : U.get i i = 0)
    (hrow : ∀ j, i < j → U.get i j = 0) (Y : Matrix (Fin n) (Fin C.cols) K) :
    (U.toMatrix n n * Y) i = 0 := by
  funext c
  rw [Matrix.mul_apply]
  refine Finset.sum_eq_zero fun t _ => ?_
  rw [Mat.toMatrix_apply]
  rcases lt_trichotomy t i with hlt | rfl | hgt
  · rw [h.upper i t hlt, zero_mul]
  · rw [hi, zero_mul]
  · rw [hrow t hgt, zero_mul]

end IsTriangularSystem

/-- Two equations whose pivots and right sides are zero or one, and whose other coefficient is at
most two, are such a system. -/
theorem isTriangularSystem_two {p q r s t : ℝ} (hp : p = 0 ∨ p = 1) (hq : ‖q‖ ≤ 2)
    (hr : r = 0 ∨ r = 1) (hs : s = 0 ∨ s = 1) (ht : t = 0 ∨ t = 1) :
    IsTriangularSystem ⟨2, 2, #[p, q, 0, r]⟩ ⟨2, 1, #[s, t]⟩ 2 := by
  have hbound : ∀ {x : ℝ}, x = 0 ∨ x = 1 → ‖x‖ ≤ 1 := by
    rintro x (rfl | rfl) <;> simp
  have htolerance : ((⟨2, 2, #[p, q, 0, r]⟩ : Mat ℝ).tolerance : ℝ) < 1 := by
    have hnorm : (⟨2, 2, #[p, q, 0, r]⟩ : Mat ℝ).rowSumNorm ≤ 3 := by
      rw [Mat.rowSumNorm_le_iff]
      refine ⟨by norm_num, fun i hi => ?_⟩
      have hp' := hbound hp
      have hr' := hbound hr
      rw [Finset.sum_range_succ, Finset.sum_range_one]
      interval_cases i
      · change ‖p‖ + ‖q‖ ≤ 3
        linarith
      · change ‖(0 : ℝ)‖ + ‖r‖ ≤ 3
        rw [norm_zero]
        linarith
    rw [Mat.tolerance, if_neg (by simp)]
    calc negligible ℝ * _ ≤ negligible ℝ * 3 := mul_le_mul_of_nonneg_left hnorm negligible_pos.le
      _ < 1 := by norm_num [negligible]
  have hlarge : ∀ {x : ℝ}, x = 0 ∨ x = 1 →
      x = 0 ∨ ((⟨2, 2, #[p, q, 0, r]⟩ : Mat ℝ).tolerance : ℝ) < ‖x‖ := by
    rintro x (rfl | rfl)
    · exact Or.inl rfl
    · exact Or.inr (by rwa [norm_one])
  constructor
  case rows_eq => rfl
  case cols_eq => rfl
  case rows_right_eq => rfl
  case upper =>
    intro i k hk
    rcases i with _ | _ | i
    · omega
    · obtain rfl : k = 0 := by omega
      rfl
    · rw [Mat.get]
      split
      · exact getD_of_size_le (by simp; omega)
      · rfl
  case pivot =>
    intro i hi
    interval_cases i
    · exact hlarge hp
    · exact hlarge hr
  case right =>
    intro i hi c hc
    obtain rfl : c = 0 := Nat.lt_one_iff.mp hc
    interval_cases i
    · exact hlarge hs
    · exact hlarge ht

/-- Back substitution reports the lowest zero pivot by the right side of its row. What the rows
below leave of that row decides whether there is a solution, and no solution is the only one. The
report is right when the row of the pivot is zero and, where it says that there are infinitely many
solutions, no pivot above is zero. -/
theorem backSubstitute_report (h : IsTriangularSystem U C n)
    (herror : backSubstitute (R := ℝ) U C = .error e) :
    ∃ i : Fin n, IsLowestZeroPivot U i ∧ IsReport C i e ∧
      (∃ Y, DecidesRow U C i Y) ∧
      (0 < C.cols → (U.solutions C n).Nonempty → (U.solutions C n).Infinite) ∧
      ((∀ j : Fin n, i < j → U.get i j = 0) →
        (e = .inconsistent → U.solutions C n = ∅) ∧
        (e = .rankDeficient → (∀ r < i, U.get r r ≠ 0) → 0 < C.cols →
          (U.solutions C n).Infinite)) := by
  obtain ⟨i, hi⟩ := h.exists_lowest_zero_pivot herror
  obtain ⟨e', herror', hreport⟩ := h.exists_report hi
  obtain rfl : e' = e := Except.error.inj (herror'.symm.trans herror)
  obtain ⟨Y, hY⟩ := h.exists_decidesRow hi
  refine ⟨i, hi, hreport, ⟨Y, hY⟩, h.infinite_of_nonempty hi, fun hrow => ?_⟩
  have hzero := h.mul_row_eq_zero hi.1 hrow Y
  constructor
  · rintro rfl
    obtain ⟨c, hc, hne⟩ := hreport.exists_ne_zero
    refine hY.solutions_eq fun heq => hne ?_
    rw [hzero] at heq
    exact (congrFun heq ⟨c, hc⟩).symm
  · rintro rfl habove hcols
    refine h.infinite_of_nonempty hi hcols (hY.solutions_nonempty ?_ habove)
    rw [hzero]
    funext c
    exact (hreport.eq_zero c c.isLt).symm

/-- The equations `x + 2 y = 1` and `0 = 1` are reported to have no solution, and have none. -/
theorem backSubstitute_report_zero_row :
    IsTriangularSystem (⟨2, 2, #[1, 2, 0, 0]⟩ : Mat ℝ) ⟨2, 1, #[1, 1]⟩ 2 ∧
      backSubstitute (R := ℝ) (⟨2, 2, #[1, 2, 0, 0]⟩ : Mat ℝ) ⟨2, 1, #[1, 1]⟩ =
        .error .inconsistent ∧
      Mat.solutions (⟨2, 2, #[1, 2, 0, 0]⟩ : Mat ℝ) ⟨2, 1, #[1, 1]⟩ 2 = ∅ := by
  have h : IsTriangularSystem (⟨2, 2, #[1, 2, 0, 0]⟩ : Mat ℝ) ⟨2, 1, #[1, 1]⟩ 2 :=
    isTriangularSystem_two (Or.inr rfl) (by norm_num) (Or.inl rfl) (Or.inr rfl) (Or.inr rfl)
  have hpivot : IsLowestZeroPivot (⟨2, 2, #[1, 2, 0, 0]⟩ : Mat ℝ) (1 : Fin 2) :=
    ⟨rfl, fun r hr => absurd hr (by omega)⟩
  have herror := h.backSubstitute_eq_inconsistent hpivot Nat.one_pos one_ne_zero
  obtain ⟨i, hi, -, -, -, hright⟩ := backSubstitute_report h herror
  have hlast : i = 1 := by
    by_contra hne
    obtain rfl : i = 0 := by omega
    exact one_ne_zero hi.1
  subst hlast
  exact ⟨h, herror, (hright fun j hj => absurd hj (by omega)).1 rfl⟩

/-- The equations `y = 1` and `y = 1` for `x` and `y` are reported to have no solution, and have
infinitely many. The equations `y = 0` and `y = 1` are reported to have infinitely many, and have
none. -/
theorem backSubstitute_report_wrong :
    (backSubstitute (R := ℝ) (⟨2, 2, #[0, 1, 0, 1]⟩ : Mat ℝ) ⟨2, 1, #[1, 1]⟩ =
        .error .inconsistent ∧
      (Mat.solutions (⟨2, 2, #[0, 1, 0, 1]⟩ : Mat ℝ) ⟨2, 1, #[1, 1]⟩ 2).Infinite) ∧
    (backSubstitute (R := ℝ) (⟨2, 2, #[0, 1, 0, 1]⟩ : Mat ℝ) ⟨2, 1, #[0, 1]⟩ =
        .error .rankDeficient ∧
      Mat.solutions (⟨2, 2, #[0, 1, 0, 1]⟩ : Mat ℝ) ⟨2, 1, #[0, 1]⟩ 2 = ∅) := by
  have hpivot : IsLowestZeroPivot (⟨2, 2, #[0, 1, 0, 1]⟩ : Mat ℝ) (0 : Fin 2) := by
    refine ⟨rfl, fun r hr => ?_⟩
    obtain rfl : r = 1 := by omega
    exact one_ne_zero
  constructor
  · have h : IsTriangularSystem (⟨2, 2, #[0, 1, 0, 1]⟩ : Mat ℝ) ⟨2, 1, #[1, 1]⟩ 2 :=
      isTriangularSystem_two (Or.inl rfl) (by norm_num) (Or.inr rfl) (Or.inr rfl) (Or.inr rfl)
    refine ⟨h.backSubstitute_eq_inconsistent hpivot Nat.one_pos one_ne_zero, ?_⟩
    refine h.infinite_of_nonempty hpivot Nat.one_pos
      ⟨Matrix.of fun r _ => if r = 0 then 0 else 1, ?_⟩
    ext r c
    fin_cases r <;> fin_cases c <;> simp [Matrix.mul_apply, Mat.get]
  · have h : IsTriangularSystem (⟨2, 2, #[0, 1, 0, 1]⟩ : Mat ℝ) ⟨2, 1, #[0, 1]⟩ 2 :=
      isTriangularSystem_two (Or.inl rfl) (by norm_num) (Or.inr rfl) (Or.inl rfl) (Or.inr rfl)
    refine ⟨h.backSubstitute_eq_rankDeficient hpivot fun c hc => ?_, ?_⟩
    · obtain rfl : c = 0 := Nat.lt_one_iff.mp hc
      rfl
    · rw [Set.eq_empty_iff_forall_notMem]
      intro X hX
      have hupper : X 1 0 = 0 := by
        simpa [Matrix.mul_apply, Mat.get] using congrFun (congrFun hX 0) 0
      have hlower : X 1 0 = 1 := by
        simpa [Matrix.mul_apply, Mat.get] using congrFun (congrFun hX 1) 0
      exact zero_ne_one (hupper.symm.trans hlower)

end Report

end PolynomialEquations
