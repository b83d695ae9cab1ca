import PolynomialEquations.Proofs.Kernel.Exact
import PolynomialEquations.Proofs.Matrix.BackSubstitution
import PolynomialEquations.Proofs.Matrix.Factorization

/-!
# Least squares by factorisation

A unitary factor does not change distances, so the distance of `A u` from a right side splits into
the distance in the triangular system and the part of the transformed right side behind the columns.
The pivots of the triangular system are large compared with its tolerance, because the factorisation
keeps the norms of the columns.
-/

namespace PolynomialEquations

open Matrix

variable {K : Type} [RCLike K] {A : Mat K} {F : QR K} {δ : ℝ}

/-- The adjoint of a stored matrix is the conjugate transpose. -/
theorem toMatrix_adjoint {Q : Mat K} {m n : ℕ} (hm : Q.rows = m) (hn : Q.cols = n) :
    (Q.adjoint (R := ℝ)).toMatrix n m = (Q.toMatrix m n)ᴴ := by
  subst hm hn
  ext i c
  rw [Mat.toMatrix_apply, Mat.adjoint, Mat.get_ofFn _ i.isLt c.isLt, conjTranspose_apply]
  rfl

/-- The distance of `A u` from the right side is that of the transformed vectors. -/
theorem IsFactorization.residualNorm_sq (h : IsFactorization A F) (b u : Array K) :
    residualNorm A b u ^ 2 = ∑ i ∈ Finset.range A.rows,
      ‖(F.r.mulVec u).getD i 0 - ((F.q.adjoint (R := ℝ)).mulVec b).getD i 0‖ ^ 2 := by
  let Q := F.q.toMatrix A.rows A.rows
  let x := coordinates A.rows (F.r.mulVec u)
  let y := coordinates A.rows ((F.q.adjoint (R := ℝ)).mulVec b)
  have hx : Q *ᵥ x = coordinates A.rows (A.mulVec u) := by
    have hfactor : x = F.r.toMatrix A.rows A.cols *ᵥ coordinates A.cols u :=
      Mat.coordinates_mulVec_of_eq h.rows_r h.cols_r u
    rw [hfactor, mulVec_mulVec, h.product, Mat.coordinates_mulVec]
  have hy : Q *ᵥ y = coordinates A.rows b := by
    have hadjoint : y = (F.q.adjoint (R := ℝ)).toMatrix A.rows A.rows *ᵥ coordinates A.rows b :=
      Mat.coordinates_mulVec_of_eq h.cols_q h.rows_q b
    rw [hadjoint, toMatrix_adjoint h.rows_q h.cols_q, mulVec_mulVec, ← star_eq_conjTranspose,
      mem_unitaryGroup_iff.mp h.unitary, one_mulVec]
  have hlength := sum_norm_unitary_mulVec h.unitary (x - y)
  rw [mulVec_sub, hx, hy] at hlength
  rw [residualNorm, Real.sq_sqrt (Finset.sum_nonneg fun i _ => sq_nonneg _),
    ← Fin.sum_univ_eq_sum_range (fun i => ‖(A.mulVec u).getD i 0 - b.getD i 0‖ ^ 2),
    ← Fin.sum_univ_eq_sum_range (fun i => ‖(F.r.mulVec u).getD i 0 -
      ((F.q.adjoint (R := ℝ)).mulVec b).getD i 0‖ ^ 2)]
  exact hlength

/-- The distance splits into the one in the triangular system and the part of the transformed right
side behind the columns. -/
theorem IsFactorization.residualNorm_sq_split (h : IsFactorization A F)
    (hzero : IsEliminated (F.r.toMatrix A.rows A.cols) A.cols) (hshape : A.cols ≤ A.rows)
    (b u : Array K) :
    let y := (F.q.adjoint (R := ℝ)).mulVec b
    residualNorm A b u ^ 2 = ∑ i ∈ Finset.range A.cols,
      ‖((F.r.topRows A.cols).mulVec u).getD i 0 - y.getD i 0‖ ^ 2 +
        euclideanNorm (y.extract A.cols y.size) ^ 2 := by
  intro y
  have hysize : y.size = A.rows := by rw [Mat.size_mulVec, Mat.adjoint, Mat.rows_ofFn, h.cols_q]
  obtain ⟨n, hn⟩ := Nat.exists_eq_add_of_le hshape
  rw [h.residualNorm_sq, hn, Finset.sum_range_add, euclideanNorm_sq, Array.size_extract, hysize]
  congr 1
  · refine Finset.sum_congr rfl fun i hi => ?_
    rw [Finset.mem_range] at hi
    rw [Mat.getD_mulVec_topRows F.r u hi (by rw [h.rows_r]; omega)]
  · refine Finset.sum_congr (by congr 1; omega) fun i hi => ?_
    rw [Finset.mem_range] at hi
    have hbehind : (F.r.mulVec u).getD (A.cols + i) 0 = 0 := by
      rw [Mat.getD_mulVec F.r u (by rw [h.rows_r]; omega), h.cols_r]
      refine Finset.sum_eq_zero fun k hk => ?_
      rw [Finset.mem_range] at hk
      have hentry := hzero ⟨A.cols + i, by omega⟩ ⟨k, hk⟩ hk (by simp only; omega)
      rw [Mat.toMatrix_apply] at hentry
      rw [hentry, zero_mul]
    rw [hbehind, zero_sub, norm_neg, getD_extract, if_pos (by omega)]

/-- No row of the triangular factor is longer than the matrix. -/
theorem IsFactorization.sum_norm_row_le (h : IsFactorization A F)
    (hsize : A.entries.size = A.rows * A.cols) {i : ℕ} (hi : i < A.rows) :
    ∑ j ∈ Finset.range A.cols, ‖F.r.get i j‖ ^ 2 ≤ A.frobeniusNorm ^ 2 := by
  have hcol : ∀ j : Fin A.cols, ∑ k : Fin A.rows, ‖F.r.get k j‖ ^ 2 =
      ∑ k : Fin A.rows, ‖A.get k j‖ ^ 2 := by
    intro j
    have hlength := sum_norm_unitary_mulVec h.unitary (F.r.toMatrix A.rows A.cols *ᵥ Pi.single j 1)
    rw [mulVec_mulVec, h.product, mulVec_single_one, mulVec_single_one] at hlength
    exact hlength.symm
  rw [Mat.frobeniusNorm_sq hsize, Finset.sum_comm]
  refine Finset.sum_le_sum fun j hj => ?_
  have hj' := hcol ⟨j, Finset.mem_range.mp hj⟩
  rw [Fin.sum_univ_eq_sum_range (fun k => ‖F.r.get k j‖ ^ 2),
    Fin.sum_univ_eq_sum_range (fun k => ‖A.get k j‖ ^ 2)] at hj'
  rw [← hj']
  exact Finset.single_le_sum (f := fun k => ‖F.r.get k j‖ ^ 2) (fun k _ => sq_nonneg _)
    (Finset.mem_range.mpr hi)

/-- The triangular system of a factorisation in which no column was skipped is solved. -/
theorem FactorProgress.exists_backSubstituteVector (h : FactorProgress A δ F A.cols)
    (hsize : A.entries.size = A.rows * A.cols) (hshape : A.cols ≤ A.rows) (hcols : 0 < A.cols)
    (hδ : negligible ℝ * (√A.cols * A.frobeniusNorm) < δ) {y : Array K} (hy : y.size = A.cols) :
    ∃ x, backSubstituteVector (R := ℝ) (F.r.topRows A.cols) y = .ok x ∧ x.size = A.cols ∧
      (F.r.topRows A.cols).mulVec x = y := by
  have hrows_U : (F.r.topRows A.cols).rows = A.cols :=
    Mat.rows_topRows (hshape.trans_eq h.rows_r.symm)
  have hcols_U : (F.r.topRows A.cols).cols = A.cols := h.cols_r
  have hentry : ∀ i < A.cols, ∀ k < A.cols, (F.r.topRows A.cols).get i k = F.r.get i k := by
    intro i hi k hk
    exact Mat.get_topRows _ hi (by rw [h.rows_r]; omega) (by rw [h.cols_r]; exact hk)
  refine PolynomialEquations.exists_backSubstituteVector hrows_U hcols_U hy ?_ ?_
  · intro r hr
    have htolerance : ((F.r.topRows A.cols).tolerance : ℝ) ≤
        negligible ℝ * (√A.cols * A.frobeniusNorm) := by
      have hrow : ∀ i < (F.r.topRows A.cols).rows, ∑ k ∈ Finset.range (F.r.topRows A.cols).cols,
          ‖(F.r.topRows A.cols).get i k‖ ^ 2 ≤ A.frobeniusNorm ^ 2 := by
        intro i hi
        rw [hrows_U] at hi
        rw [hcols_U,
          Finset.sum_congr rfl fun k hk => by rw [hentry i hi k (Finset.mem_range.mp hk)]]
        exact h.sum_norm_row_le hsize (hi.trans_le hshape)
      have hle := Mat.tolerance_le_of_sum_sq_le (euclideanNorm_nonneg A.entries)
        (by rw [hrows_U, hcols_U]; positivity) hrow
      rwa [hcols_U] at hle
    rw [hentry r hr r hr]
    exact (htolerance.trans_lt hδ).trans_le
      (h.diagonal ⟨r, hr.trans_le hshape⟩ ⟨r, hr⟩ hr rfl)
  · intro i hi k hki
    rw [hentry i hi k (hki.trans hi)]
    exact h.eliminated ⟨i, hi.trans_le hshape⟩ ⟨k, hki.trans hi⟩ (hki.trans hi) hki

/-- The triangular system for the leading part of the transformed right side is solved, and its
solution is the only vector that comes as close to the right side as the part behind the columns is
long. -/
theorem FactorProgress.exists_closest (h : FactorProgress A δ F A.cols)
    (hsize : A.entries.size = A.rows * A.cols) (hshape : A.cols ≤ A.rows) (hcols : 0 < A.cols)
    (hδ : negligible ℝ * (√A.cols * A.frobeniusNorm) < δ) (b : Array K) :
    let y := (F.q.adjoint (R := ℝ)).mulVec b
    ∃ x, backSubstituteVector (R := ℝ) (F.r.topRows A.cols) (y.extract 0 A.cols) = .ok x ∧
      x.size = A.cols ∧ residualNorm A b x = euclideanNorm (y.extract A.cols y.size) ∧
      ∀ u : Array K, u.size = A.cols →
        euclideanNorm (y.extract A.cols y.size) ≤ residualNorm A b u ∧
        (residualNorm A b u = euclideanNorm (y.extract A.cols y.size) → u = x) := by
  intro y
  let U := F.r.topRows A.cols
  have hsolvable : ∀ z : Array K, z.size = A.cols → ∃ x,
      backSubstituteVector (R := ℝ) U z = .ok x ∧ x.size = A.cols ∧ U.mulVec x = z :=
    fun z hz => h.exists_backSubstituteVector hsize hshape hcols hδ hz
  have hrows : U.rows = A.cols := Mat.rows_topRows (hshape.trans_eq h.rows_r.symm)
  have hsplit : ∀ u : Array K, residualNorm A b u ^ 2 =
      ∑ i ∈ Finset.range A.cols, ‖(U.mulVec u).getD i 0 - y.getD i 0‖ ^ 2 +
        euclideanNorm (y.extract A.cols y.size) ^ 2 :=
    h.residualNorm_sq_split h.eliminated hshape b
  have hy : y.size = A.rows := (Mat.size_mulVec _ _).trans h.cols_q
  have htop : (y.extract 0 A.cols).size = A.cols := by
    rw [Array.size_extract, hy]
    omega
  have hread : ∀ i < A.cols, (y.extract 0 A.cols).getD i 0 = y.getD i 0 := by
    intro i hi
    rw [getD_extract, Nat.zero_add, if_pos hi]
  obtain ⟨x, hok, hx, hUx⟩ := hsolvable (y.extract 0 A.cols) htop
  refine ⟨x, hok, hx, ?_, fun u hu => ?_⟩
  · have hzero : ∑ i ∈ Finset.range A.cols, ‖(U.mulVec x).getD i 0 - y.getD i 0‖ ^ 2 = 0 := by
      refine Finset.sum_eq_zero fun i hi => ?_
      rw [hUx, hread i (Finset.mem_range.mp hi), sub_self, norm_zero, zero_pow two_ne_zero]
    have hsquare := hsplit x
    rw [hzero, zero_add] at hsquare
    exact (pow_left_inj₀ (Real.sqrt_nonneg _) (euclideanNorm_nonneg _) two_ne_zero).mp hsquare
  · have hsquare := hsplit u
    have hnonneg : ∀ i ∈ Finset.range A.cols,
        0 ≤ ‖(U.mulVec u).getD i 0 - y.getD i 0‖ ^ 2 := fun i _ => sq_nonneg _
    constructor
    · refine (pow_le_pow_iff_left₀ (euclideanNorm_nonneg _) (Real.sqrt_nonneg _) two_ne_zero).mp ?_
      exact (le_add_of_nonneg_left (Finset.sum_nonneg hnonneg)).trans hsquare.ge
    · intro heq
      rw [heq, right_eq_add, Finset.sum_eq_zero_iff_of_nonneg hnonneg] at hsquare
      have hUu : U.mulVec u = y.extract 0 A.cols := by
        refine eq_of_getD_eq (by rw [Mat.size_mulVec, hrows, htop]) fun i => ?_
        by_cases hi : i < A.cols
        · have hentry := hsquare i (Finset.mem_range.mpr hi)
          rw [sq_eq_zero_iff, norm_eq_zero, sub_eq_zero] at hentry
          rw [hentry, hread i hi]
        · rw [getD_of_size_le (by rw [Mat.size_mulVec]; omega), getD_of_size_le (by omega)]
      exact eq_of_mulVec_eq hrows h.cols_r
        (fun z hz => (hsolvable z hz).imp fun _ hz' => hz'.2) hu hx (hUu.trans hUx.symm)

end PolynomialEquations
