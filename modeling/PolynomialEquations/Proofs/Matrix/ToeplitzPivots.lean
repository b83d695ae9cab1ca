import PolynomialEquations.Proofs.Matrix.Toeplitz

/-!
# The pivots of the banded matrix

A factorisation that skips no column leaves on the diagonal the distances of the columns from the
span of the columns before them. For the banded matrix of `a` the distance of column `j` is the
least 2-norm of a product of `a` with a monic polynomial of degree `j`. Such a product keeps the
last coefficient of `a`, and its reversal the first one, so neither exceeds a pivot; and a factor
`X` turns a product for one column into a product for the next, so the pivots never grow.
-/

namespace PolynomialEquations

open Matrix Polynomial

variable {K : Type} [RCLike K]

section Pivots

variable {A : Mat K} {F : QR K} {δ : ℝ}

/-- The factorisation reflects every column: each one is longer at and below the diagonal than the
length up to which a column is skipped. -/
def KeepsEveryColumn (A : Mat K) : Prop :=
  ∀ j < min A.rows A.cols, columnTolerance A < euclideanNorm (belowDiagonal (factorState A j).r j)

/-- No column is skipped when all of them stay apart by more than the tolerance. -/
theorem keepsEveryColumn (hA : ColumnsApart (A.toMatrix A.rows A.cols) δ) (hδ : 0 < δ)
    (htol : columnTolerance A < δ) : KeepsEveryColumn A := by
  intro j hj
  obtain ⟨hrow, hcol⟩ := lt_min_iff.mp hj
  have h := factorProgress_factorState hA hδ htol hrow.le hcol.le
  exact htol.trans_le (h.le_belowDiagonal hA hδ ⟨j, hcol⟩ hrow h.eliminated h.diagonal)

/-- A combination of column `j` with the columns before it has the pivot in row `j`. -/
theorem FactorProgress.mulVec_diagonal (h : FactorProgress A δ F A.cols) {j : Fin A.cols}
    (hj : (j : ℕ) < A.rows) {v : Fin A.cols → K} (hvj : v j = 1) (hvlater : ∀ c, j < c → v c = 0) :
    (F.r.toMatrix A.rows A.cols *ᵥ v) ⟨j, hj⟩ = F.r.get j j :=
  mulVec_apply_of_combination hvj hvlater fun c hc => h.eliminated _ c c.isLt hc

/-- A pivot is the least length of a combination of its column with the columns before it. -/
theorem FactorProgress.isLeast_pivot (h : FactorProgress A δ F A.cols) (hδ : 0 < δ)
    {j : Fin A.cols} (hj : (j : ℕ) < A.rows) :
    IsLeast {t | ∃ v : Fin A.cols → K, v j = 1 ∧ (∀ c, j < c → v c = 0) ∧
      ∑ i, ‖(A.toMatrix A.rows A.cols *ᵥ v) i‖ ^ 2 = t} (‖F.r.get j j‖ ^ 2) := by
  have hlength : ∀ v : Fin A.cols → K, ∑ i, ‖(A.toMatrix A.rows A.cols *ᵥ v) i‖ ^ 2 =
      ∑ i, ‖(F.r.toMatrix A.rows A.cols *ᵥ v) i‖ ^ 2 := by
    intro v
    rw [← h.product, ← mulVec_mulVec, sum_norm_unitary_mulVec h.unitary]
  constructor
  · -- the combination that vanishes above the diagonal
    have heliminated : IsEliminated (F.r.toMatrix A.rows A.cols) j :=
      fun i c _ hci => h.eliminated i c c.isLt hci
    have hdiagonal : HasDiagonal (F.r.toMatrix A.rows A.cols) δ j :=
      fun i c _ hic => h.diagonal i c c.isLt hic
    obtain ⟨v, hvj, hvlater, hbelow⟩ := exists_mulVec_eq_below hδ hj heliminated hdiagonal
    refine ⟨v, hvj, hvlater, ?_⟩
    rw [hlength, Finset.sum_eq_single ⟨j, hj⟩, h.mulVec_diagonal hj hvj hvlater]
    · intro i _ hi
      have hne : (i : ℕ) ≠ j := fun heq => hi (Fin.ext heq)
      have hzero : (F.r.toMatrix A.rows A.cols *ᵥ v) i = 0 := by
        rw [hbelow]
        by_cases hlt : (i : ℕ) < j
        · exact if_pos hlt
        · exact (if_neg hlt).trans (h.eliminated i j j.isLt (by omega))
      rw [hzero, norm_zero, zero_pow two_ne_zero]
    · exact fun hmem => absurd (Finset.mem_univ _) hmem
  · rintro _ ⟨v, hvj, hvlater, rfl⟩
    rw [hlength, ← h.mulVec_diagonal hj hvj hvlater]
    exact Finset.single_le_sum
      (f := fun i => ‖(F.r.toMatrix A.rows A.cols *ᵥ v) i‖ ^ 2) (fun i _ => sq_nonneg _)
      (Finset.mem_univ _)

end Pivots

section Banded

variable {a : Poly K} {n : ℕ} {F : QR K} {δ : ℝ}

/-- A pivot of the banded matrix is the least 2-norm of a product with a monic polynomial. -/
theorem isLeast_pivot_toeplitz (h : FactorProgress (toeplitz a n) δ F n) (hδ : 0 < δ) {j : ℕ}
    (hrow : j < (toeplitz a n).rows) (hcol : j < n) :
    IsLeast {t | ∃ p : K[X], p.Monic ∧ p.natDegree = j ∧
      coefficientNorm (a.toPolynomial * p) = t} ‖F.r.get j j‖ := by
  obtain ⟨⟨v, hvj, hvlater, hv⟩, hleast⟩ :=
    FactorProgress.isLeast_pivot (A := toeplitz a n) h hδ (j := ⟨j, hcol⟩) hrow
  constructor
  · obtain ⟨hmonic, hdegree⟩ := monic_vectorPolynomial hvj hvlater
    refine ⟨_, hmonic, hdegree, ?_⟩
    exact (sq_eq_sq₀ (coefficientNorm_nonneg _) (norm_nonneg _)).mp
      ((sum_norm_toeplitz_mulVec a v).symm.trans hv)
  · rintro _ ⟨p, hmonic, hdegree, rfl⟩
    obtain ⟨u, huj, hulater, rfl⟩ :=
      exists_vectorPolynomial_ofFn_eq hmonic (j := (⟨j, hcol⟩ : Fin n)) hdegree
    exact (sq_le_sq₀ (norm_nonneg _) (coefficientNorm_nonneg _)).mp
      (hleast ⟨u, huj, hulater, sum_norm_toeplitz_mulVec a u⟩)

/-- No pivot of the banded matrix exceeds the one before it. -/
theorem pivot_succ_le_toeplitz (h : FactorProgress (toeplitz a n) δ F n) (hδ : 0 < δ) {j : ℕ}
    (hrow : j + 1 < (toeplitz a n).rows) (hcol : j + 1 < n) :
    ‖F.r.get (j + 1) (j + 1)‖ ≤ ‖F.r.get j j‖ := by
  obtain ⟨⟨p, hmonic, hdegree, hnorm⟩, -⟩ :=
    isLeast_pivot_toeplitz h hδ (Nat.lt_of_succ_lt hrow) (Nat.lt_of_succ_lt hcol)
  refine (isLeast_pivot_toeplitz h hδ hrow hcol).2 ⟨X * p, monic_X.mul hmonic, ?_, ?_⟩
  · rw [natDegree_X_mul hmonic.ne_zero, hdegree]
  · rw [mul_left_comm, coefficientNorm_X_mul, hnorm]

/-- The reduced factorisation has the diagonal of the complete one. -/
theorem get_householderQR_r {A : Mat K} (wanted : Factors) {j : ℕ} (hrow : j < A.rows)
    (hcol : j < A.cols) : (householderQR (R := ℝ) A wanted).r.get j j =
      (householderQR (R := ℝ) A .complete).r.get j j := by
  cases wanted with
  | complete => rfl
  | reduced =>
    change ((householderQR (R := ℝ) A .complete).r.topRows _).get j j = _
    exact Mat.get_topRows _ (lt_min hrow hcol) hrow hcol

/-- When the first or the last coefficient is not negligible, the factorisation of the banded matrix
skips no column, no pivot is smaller than the larger of these coefficients, and no pivot exceeds the
one before it. -/
theorem householderQR_toeplitz (ha : a.IsOrdinary) {c : ℤ} (hc : 1 ≤ c)
    (hends : 1e-12 * √c * euclideanNorm a.coef < max ‖a.coeff 0‖ ‖a.coeff a.degree‖)
    (wanted : Factors) :
    ∃ n, columnCount? c = .ok n ∧ (n : ℤ) = c ∧ KeepsEveryColumn (toeplitz a n) ∧
      let R := (householderQR (R := ℝ) (toeplitz a n) wanted).r
      (∀ j < n, max ‖a.coeff 0‖ ‖a.coeff a.degree‖ ≤ ‖R.get j j‖) ∧
      ∀ j, j + 1 < n → ‖R.get (j + 1) (j + 1)‖ ≤ ‖R.get j j‖ := by
  lift c to ℕ using (by omega) with n
  have hcoeff : a.coeff 0 = a.toPolynomial.coeff 0 := by
    rw [Poly.coeff_toPolynomial]
    exact Poly.coeff_natCast ha.variant_eq 0
  rw [hcoeff, ha.coeff_degree] at hends ⊢
  have htol : negligible ℝ * (toeplitz a n).frobeniusNorm <
      max ‖a.toPolynomial.coeff 0‖ ‖a.toPolynomial.leadingCoeff‖ := by
    rw [frobeniusNorm_toeplitz, ← mul_assoc]
    exact hends
  have hpos : 0 < max ‖a.toPolynomial.coeff 0‖ ‖a.toPolynomial.leadingCoeff‖ :=
    (mul_nonneg negligible_pos.le (euclideanNorm_nonneg _)).trans_lt htol
  have happart := columnsApart_toeplitz a n
  have hshape : n ≤ (toeplitz a n).rows := cols_le_rows_toeplitz ha n
  have hprogress := householderQR_complete happart hpos htol hshape
  refine ⟨n, if_neg (by omega), rfl,
    keepsEveryColumn happart hpos ((columnTolerance_le _).trans_lt htol), fun j hj => ?_,
    fun j hj => ?_⟩
  · rw [get_householderQR_r wanted (hj.trans_le hshape) hj]
    exact hprogress.diagonal ⟨j, hj.trans_le hshape⟩ ⟨j, hj⟩ hj rfl
  · rw [get_householderQR_r wanted (hj.trans_le hshape) hj,
      get_householderQR_r wanted (by omega) (Nat.lt_of_succ_lt hj)]
    exact pivot_succ_le_toeplitz hprogress hpos (hj.trans_le hshape) hj

/-- The first coefficient of `2 + s` is the larger one, and no pivot of the banded matrix with two
columns is smaller. -/
theorem householderQR_toeplitz_linear :
    1e-12 * √(2 : ℤ) * euclideanNorm (Poly.ofCoef #[(2 : ℝ), 1] "s").coef <
        max ‖(Poly.ofCoef #[(2 : ℝ), 1] "s").coeff 0‖
          ‖(Poly.ofCoef #[(2 : ℝ), 1] "s").coeff (Poly.ofCoef #[(2 : ℝ), 1] "s").degree‖ ∧
      KeepsEveryColumn (toeplitz (Poly.ofCoef #[(2 : ℝ), 1] "s") 2) ∧
      let R := (householderQR (R := ℝ) (toeplitz (Poly.ofCoef #[(2 : ℝ), 1] "s") 2) .complete).r
      2 ≤ ‖R.get 0 0‖ ∧ 2 ≤ ‖R.get 1 1‖ ∧ ‖R.get 1 1‖ ≤ ‖R.get 0 0‖ := by
  have ha := Poly.isOrdinary_ofCoef #[(2 : ℝ), 1] "s"
  have hfirst : (Poly.ofCoef #[(2 : ℝ), 1] "s").coeff 0 = 2 := by
    rw [Poly.coeff_ofCoef]
    rfl
  have hends : 2 ≤ max ‖(Poly.ofCoef #[(2 : ℝ), 1] "s").coeff 0‖
      ‖(Poly.ofCoef #[(2 : ℝ), 1] "s").coeff (Poly.ofCoef #[(2 : ℝ), 1] "s").degree‖ := by
    rw [hfirst]
    exact le_max_of_le_left (by norm_num)
  have hnorm : (euclideanNorm (Poly.ofCoef #[(2 : ℝ), 1] "s").coef : ℝ) = √5 := by
    rw [euclideanNorm_congr (Poly.getD_coef_ofCoef #[(2 : ℝ), 1] "s"), euclideanNorm_eq_sqrt]
    norm_num [Finset.sum_range_succ]
  have hsmall : 1e-12 * √(2 : ℤ) * euclideanNorm (Poly.ofCoef #[(2 : ℝ), 1] "s").coef <
      max ‖(Poly.ofCoef #[(2 : ℝ), 1] "s").coeff 0‖
        ‖(Poly.ofCoef #[(2 : ℝ), 1] "s").coeff (Poly.ofCoef #[(2 : ℝ), 1] "s").degree‖ := by
    have hroot : √(10 : ℝ) ≤ 4 := Real.sqrt_le_iff.mpr (by norm_num)
    refine lt_of_lt_of_le ?_ hends
    rw [hnorm, mul_assoc, ← Real.sqrt_mul (by norm_num)]
    norm_num
    linarith
  obtain ⟨n, -, hn, hkeeps, hlarge, hfalls⟩ :=
    householderQR_toeplitz ha (c := 2) (by norm_num) hsmall .complete
  obtain rfl : n = 2 := by exact_mod_cast hn
  exact ⟨hsmall, hkeeps, hends.trans (hlarge 0 Nat.two_pos), hends.trans (hlarge 1 one_lt_two),
    hfalls 0 one_lt_two⟩

end Banded

end PolynomialEquations
