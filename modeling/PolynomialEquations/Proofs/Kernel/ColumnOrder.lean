import PolynomialEquations.Proofs.Kernel.Direction
import PolynomialEquations.Proofs.Kernel.Existence

/-!
# The vector chosen does not depend on the order of the columns

The directions of orthonormal columns are at distance `√2` from each other, and vectors with the
same rounded key are at most `√2 · 10⁻⁸` apart in each entry. So fewer than `10¹⁵` rows leave no
room for two columns to share a key: the direction with the least key is unique. As a column and its
multiples have one direction, neither the order of the columns nor a factor for each of them changes
the choice.
-/

namespace PolynomialEquations

variable {K : Type} [RCLike K] {N : Mat K}

section Keys

variable {u v : Array K}

/-- Numbers that agree in eight rounded places are close to each other. -/
theorem abs_sub_le_of_roundedToEight_eq {x y : ℝ} (h : roundedToEight x = roundedToEight y) :
    |x - y| ≤ 1e-8 := by
  have hround : (nearestEven (x * 1e8) : ℝ) = nearestEven (y * 1e8) :=
    (div_left_inj' (by norm_num)).mp h
  have hx := abs_le.mp (abs_nearestEven_sub_le (x * 1e8))
  have hy := abs_le.mp (abs_nearestEven_sub_le (y * 1e8))
  rw [hround] at hx
  rw [abs_le]
  constructor <;> linarith

/-- A function that maps the entries of two vectors of one size to the same list agrees on them at
every position. -/
theorem apply_getD_eq_of_map_eq {α : Type} {f : K → α} (hsize : u.size = v.size)
    (h : u.toList.map f = v.toList.map f) (i : ℕ) : f (u.getD i 0) = f (v.getD i 0) := by
  by_cases hi : i < u.size
  · have hv : i < v.size := by omega
    have hentry := congrArg (·[i]?) h
    simpa [getD_of_lt_size hi, getD_of_lt_size hv, hi, hv] using hentry
  · rw [getD_of_size_le (by omega), getD_of_size_le (by omega)]

/-- Vectors of one size with the same key are close to each other in every entry. -/
theorem norm_sub_sq_le_of_directionKey_eq (hsize : u.size = v.size)
    (h : directionKey (R := ℝ) u = directionKey v) (i : ℕ) :
    ‖u.getD i 0 - v.getD i 0‖ ^ 2 ≤ 2e-16 := by
  -- the real parts come first in a key, and there are as many for either vector
  obtain ⟨hre, him⟩ := List.append_inj h (by simp [hsize])
  have hre := abs_sub_le_of_roundedToEight_eq (apply_getD_eq_of_map_eq hsize hre i)
  have him := abs_sub_le_of_roundedToEight_eq (apply_getD_eq_of_map_eq hsize him i)
  rw [scalar_re, scalar_re, ← map_sub] at hre
  rw [scalar_im, scalar_im, ← map_sub] at him
  let d := u.getD i 0 - v.getD i 0
  calc ‖d‖ ^ 2 = |RCLike.re d| ^ 2 + |RCLike.im d| ^ 2 := by
        rw [RCLike.norm_sq_eq_def, sq_abs, sq_abs, sq, sq]
    _ ≤ (1e-8) ^ 2 + (1e-8) ^ 2 := by gcongr
    _ = 2e-16 := by norm_num

end Keys

section Separation

/-- The columns have norm one and are orthogonal to each other. -/
def Mat.HasOrthonormalColumns (N : Mat K) : Prop :=
  ∀ j < N.cols, ∀ k < N.cols,
    ∑ i ∈ Finset.range N.rows, N.get i k * starRingEnd K (N.get i j) = if j = k then 1 else 0

namespace Mat.HasOrthonormalColumns

/-- Orthonormal columns are orthonormal vectors of the Euclidean space. -/
theorem orthonormal (h : N.HasOrthonormalColumns) :
    Orthonormal K fun j : Fin N.cols => WithLp.toLp 2 (N.column N.rows j) := by
  refine orthonormal_iff_ite.mpr fun j k => ?_
  calc inner K (WithLp.toLp 2 (N.column N.rows j)) (WithLp.toLp 2 (N.column N.rows k))
      = ∑ i : Fin N.rows, N.get i k * starRingEnd K (N.get i j) := PiLp.inner_apply _ _
    _ = ∑ i ∈ Finset.range N.rows, N.get i k * starRingEnd K (N.get i j) :=
        Fin.sum_univ_eq_sum_range (fun i => N.get i k * starRingEnd K (N.get i j)) N.rows
    _ = if j = k then 1 else 0 := by
        rw [h j j.isLt k k.isLt]
        simp only [Fin.ext_iff]

/-- Orthonormal columns have an entry other than zero. -/
theorem exists_col_ne_zero (h : N.HasOrthonormalColumns) (j : Fin N.cols) :
    ∃ i, (N.col j).getD i 0 ≠ 0 :=
  Mat.exists_col_ne_zero rfl fun hzero =>
    h.orthonormal.ne_zero j (by rw [hzero, WithLp.toLp_zero])

/-- The direction of a column is canonical, and it is the column times a number of modulus one. -/
theorem exists_direction_factor (h : N.HasOrthonormalColumns) (j : Fin N.cols) :
    IsCanonical (N.direction j) ∧
      ∃ t : K, ‖t‖ = 1 ∧ ∀ i, (N.direction j).getD i 0 = t * (N.col j).getD i 0 := by
  obtain ⟨i, hi⟩ := h.exists_col_ne_zero j
  obtain ⟨hcanonical, t, -, hmultiple⟩ := exists_canonicalDirection hi
  refine ⟨hcanonical, t, ?_, hmultiple⟩
  have hcol : (euclideanNorm (N.col j) : ℝ) = 1 := by
    rw [← norm_coordinates (N.size_col j), Mat.coordinates_col rfl]
    exact h.orthonormal.norm_eq_one j
  have hnorm := euclideanNorm_multiple (size_canonicalDirection _) hmultiple
  rw [hcanonical.norm_eq_one, hcol, mul_one] at hnorm
  exact hnorm.symm

/-- The directions of two columns are as far from each other as orthogonal vectors of norm one. -/
theorem sum_norm_direction_sub_sq (h : N.HasOrthonormalColumns) {j k : Fin N.cols} (hjk : j ≠ k) :
    ∑ i : Fin N.rows, ‖(N.direction j).getD i 0 - (N.direction k).getD i 0‖ ^ 2 = 2 := by
  let place (j : Fin N.cols) : EuclideanSpace K (Fin N.rows) :=
    WithLp.toLp 2 (coordinates N.rows (N.direction j))
  have hnorm (j : Fin N.cols) : ‖place j‖ = 1 := by
    rw [norm_coordinates (N.size_direction j)]
    exact (h.exists_direction_factor j).1.norm_eq_one
  have hmultiple (j : Fin N.cols) :
      ∃ t : K, place j = t • WithLp.toLp 2 (N.column N.rows j) := by
    obtain ⟨-, t, -, ht⟩ := h.exists_direction_factor j
    refine ⟨t, ?_⟩
    rw [← Mat.coordinates_col rfl, ← WithLp.toLp_smul]
    exact congrArg (WithLp.toLp 2) (funext fun i => ht i)
  have horthogonal : inner K (place j) (place k) = 0 := by
    obtain ⟨s, hs⟩ := hmultiple j
    obtain ⟨t, ht⟩ := hmultiple k
    rw [hs, ht, inner_smul_left, inner_smul_right, h.orthonormal.inner_eq_zero hjk, mul_zero,
      mul_zero]
  have hpythagoras := @norm_sub_sq K _ _ _ _ (place j) (place k)
  rw [hnorm, hnorm, horthogonal, map_zero, EuclideanSpace.norm_sq_eq] at hpythagoras
  exact hpythagoras.trans (by norm_num)

/-- Rounding moves vectors of fewer than `10¹⁵` entries so little that no two columns share a
key. -/
theorem directionKey_injective (h : N.HasOrthonormalColumns) (hrows : N.rows < 10 ^ 15) :
    Function.Injective fun j => directionKey (R := ℝ) (N.direction j) := by
  intro j k hkey
  by_contra hjk
  have hsize : (N.direction j).size = (N.direction k).size := by simp
  have hsum : (2 : ℝ) ≤ N.rows * 2e-16 := calc
    (2 : ℝ) = ∑ i : Fin N.rows, ‖(N.direction j).getD i 0 - (N.direction k).getD i 0‖ ^ 2 :=
        (h.sum_norm_direction_sub_sq hjk).symm
    _ ≤ ∑ _i : Fin N.rows, 2e-16 :=
        Finset.sum_le_sum fun i _ => norm_sub_sq_le_of_directionKey_eq hsize hkey i
    _ = N.rows * 2e-16 := by rw [Fin.sum_const, nsmul_eq_mul]
  have hbound : (N.rows : ℝ) < 10 ^ 15 := by exact_mod_cast hrows
  linarith

end Mat.HasOrthonormalColumns

end Separation

section Rearrangement

namespace Mat

/-- The columns of `N` in another order, each times a factor of its own. -/
def rearrange (N : Mat K) (order : Equiv.Perm (Fin N.cols)) (factor : Fin N.cols → K) : Mat K :=
  ofFn N.rows N.cols fun i j =>
    if h : j < N.cols then factor ⟨j, h⟩ * N.get i (order ⟨j, h⟩) else 0

variable (order : Equiv.Perm (Fin N.cols))

@[simp] theorem rows_rearrange (factor : Fin N.cols → K) :
    (N.rearrange order factor).rows = N.rows := rfl

@[simp] theorem cols_rearrange (factor : Fin N.cols → K) :
    (N.rearrange order factor).cols = N.cols := rfl

/-- A column of a rearranged matrix is a multiple of the column that the order puts there. -/
theorem getD_col_rearrange (factor : Fin N.cols → K) (j : Fin N.cols) (i : ℕ) :
    ((N.rearrange order factor).col j).getD i 0 = factor j * (N.col (order j)).getD i 0 := by
  rw [getD_col, getD_col, mul_ite, mul_zero, rows_rearrange]
  by_cases hi : i < N.rows
  · rw [if_pos hi, if_pos hi, rearrange, get_ofFn _ hi j.isLt, dif_pos j.isLt]
  · rw [if_neg hi, if_neg hi]

/-- Factors other than zero leave the directions as they are, in the new order. -/
theorem HasOrthonormalColumns.direction_rearrange (h : N.HasOrthonormalColumns)
    {factor : Fin N.cols → K} (hfactor : ∀ j, factor j ≠ 0) (j : Fin N.cols) :
    (N.rearrange order factor).direction j = N.direction (order j) := by
  obtain ⟨i, hi⟩ := h.exists_col_ne_zero (order j)
  refine canonicalDirection_multiple hi (hfactor j) ?_ (getD_col_rearrange order factor j)
  rw [size_col, size_col, rows_rearrange]

end Mat

/-- From orthonormal columns of fewer than `10¹⁵` entries the same vector is chosen in whatever
order they stand, and by whatever factors other than zero they are multiplied. The vector is
canonical, and one of the columns times a number of modulus one. -/
theorem kernelVector_rearrange (hcols : 0 < N.cols) (hrows : N.rows < 10 ^ 15)
    (horthonormal : N.HasOrthonormalColumns) (order : Equiv.Perm (Fin N.cols))
    {factor : Fin N.cols → K} (hfactor : ∀ j, factor j ≠ 0) :
    (kernelVector (N.rearrange order factor) : Traced ℝ _) = kernelVector N ∧
      ∃ v, (kernelVector N : Traced ℝ _).outcome = .ok v ∧ IsCanonical v ∧ v.size = N.rows ∧
        ∃ j < N.cols, ∃ t : K, ‖t‖ = 1 ∧ ∀ i < N.rows, v.getD i 0 = t * N.get i j := by
  have hdirection := horthonormal.direction_rearrange order hfactor
  obtain ⟨j, hleast, hchosen⟩ := exists_kernelVector_least hcols
  obtain ⟨k, hleast', hchosen'⟩ :=
    exists_kernelVector_least (N := N.rearrange order factor) hcols
  -- both directions chosen have the least key of the same directions
  have hkeys : directionKey (R := ℝ) (N.direction (order k)) = directionKey (N.direction j) := by
    refine le_antisymm ?_ (hleast (order k))
    have hle := hleast' (order.symm j)
    rwa [hdirection k, hdirection, order.apply_symm_apply] at hle
  have hjk : order k = j := horthonormal.directionKey_injective hrows hkeys
  obtain ⟨hcanonical, t, ht, hmultiple⟩ := horthonormal.exists_direction_factor j
  refine ⟨?_, N.direction j, by rw [hchosen], hcanonical, N.size_direction j, j, j.isLt, t, ht,
    fun i hi => ?_⟩
  · rw [hchosen, hchosen', hdirection k, hjk, Mat.cols_rearrange]
  · rw [hmultiple, Mat.getD_col, if_pos hi]

end Rearrangement

section TurnedColumns

open Complex

/-- Two orthonormal columns, none of them canonical. -/
noncomputable def turnedColumns : Mat ℂ := ⟨2, 2, #[3 / 5, 4 / 5 * I, -(4 / 5 * I), -(3 / 5)]⟩

theorem turnedColumns_orthonormal : turnedColumns.HasOrthonormalColumns := by
  have h₀₀ : turnedColumns.get 0 0 = 3 / 5 := rfl
  have h₀₁ : turnedColumns.get 0 1 = 4 / 5 * I := rfl
  have h₁₀ : turnedColumns.get 1 0 = -(4 / 5 * I) := rfl
  have h₁₁ : turnedColumns.get 1 1 = -(3 / 5) := rfl
  intro j hj k hk
  change j < 2 at hj
  change k < 2 at hk
  rw [show turnedColumns.rows = 2 from rfl, Finset.sum_range_succ, Finset.sum_range_one]
  interval_cases j <;> interval_cases k <;>
    simp only [h₀₀, h₀₁, h₁₀, h₁₁, map_neg, map_mul, map_div₀, map_ofNat, conj_I, reduceIte,
      zero_ne_one, one_ne_zero]
  · linear_combination -(16 / 25) * I_sq
  · ring
  · ring
  · linear_combination -(16 / 25) * I_sq

/-- The columns exchanged and multiplied by `I` and by `-2` lead to the same choice. -/
theorem kernelVector_rearrange_exchanged :
    0 < turnedColumns.cols ∧ turnedColumns.rows < 10 ^ 15 ∧
      turnedColumns.HasOrthonormalColumns ∧ (∀ j, (![I, -2] : Fin 2 → ℂ) j ≠ 0) ∧
      (kernelVector (turnedColumns.rearrange (Equiv.swap 0 1 : Equiv.Perm (Fin 2)) ![I, -2]) :
        Traced ℝ _) = kernelVector turnedColumns ∧
      ∃ v, (kernelVector turnedColumns : Traced ℝ _).outcome = .ok v ∧ IsCanonical v ∧
        v.size = 2 ∧ ∃ j < 2, ∃ t : ℂ, ‖t‖ = 1 ∧
          ∀ i < 2, v.getD i 0 = t * turnedColumns.get i j := by
  have hcols : 0 < turnedColumns.cols := Nat.two_pos
  have hrows : turnedColumns.rows < 10 ^ 15 := by
    change 2 < 10 ^ 15
    norm_num
  have hfactor : ∀ j, (![I, -2] : Fin 2 → ℂ) j ≠ 0 := by
    rw [Fin.forall_fin_two]
    exact ⟨I_ne_zero, neg_ne_zero.mpr two_ne_zero⟩
  exact ⟨hcols, hrows, turnedColumns_orthonormal, hfactor,
    kernelVector_rearrange hcols hrows turnedColumns_orthonormal
      (Equiv.swap 0 1 : Equiv.Perm (Fin 2)) hfactor⟩

end TurnedColumns

end PolynomialEquations
