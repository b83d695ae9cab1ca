import PolynomialEquations.Equation.Homogeneous
import PolynomialEquations.Proofs.Journal
import PolynomialEquations.Proofs.Kernel.Exact
import Mathlib.Data.List.Lex
import Mathlib.Tactic.Ring

/-!
# The vector chosen from a kernel

Every candidate is a multiple of a column of the basis, scaled by a number other than zero: its
norm does not vanish, and neither does its largest entry, by which the multiple is turned. The
multiple is canonical: it has norm one, and the first of its largest entries is positive. No other
multiple of the column is. The vector chosen is a candidate with the least key, in the lexicographic
order of lists of real numbers.
-/

namespace PolynomialEquations

section Largest

/-- No number exceeds the one at the position found. -/
theorem le_largestIndex (f : ℕ → ℝ) {n j : ℕ} (hj : j < n) : f j ≤ f (largestIndex f n) := by
  induction n with
  | zero => omega
  | succ n ih =>
    have hbest : f n ≤ f (largestIndex f (n + 1)) ∧
        f (largestIndex f n) ≤ f (largestIndex f (n + 1)) := by
      simp only [largestIndex, beq_self_eq_true, Bool.true_and, Bool.not_eq_true',
        decide_eq_false_iff_not]
      by_cases hn : f n ≤ f (largestIndex f n)
      · rw [if_neg (not_not_intro hn)]
        exact ⟨hn, le_rfl⟩
      · rw [if_pos hn]
        exact ⟨le_rfl, (lt_of_not_ge hn).le⟩
    by_cases hjn : j < n
    · exact (ih hjn).trans hbest.2
    · obtain rfl : j = n := by omega
      exact hbest.1

/-- The position found is the first one of a largest number. -/
theorem lt_largestIndex (f : ℕ → ℝ) {n j : ℕ} (hj : j < largestIndex f n) :
    f j < f (largestIndex f n) := by
  induction n with
  | zero => exact absurd hj (Nat.not_lt_zero j)
  | succ n ih =>
    simp only [largestIndex, beq_self_eq_true, Bool.true_and, Bool.not_eq_true',
      decide_eq_false_iff_not] at hj ⊢
    by_cases hn : f n ≤ f (largestIndex f n)
    · rw [if_neg (not_not_intro hn)] at hj ⊢
      exact ih hj
    · rw [if_pos hn] at hj ⊢
      exact (le_largestIndex f hj).trans_lt (lt_of_not_ge hn)

end Largest

section Directions

variable {K : Type} [RCLike K]

/-- The 2-norm of a vector vanishes only for zeros. -/
theorem euclideanNorm_ne_zero {v : Array K} {i : ℕ} (hi : v.getD i 0 ≠ 0) :
    (euclideanNorm v : ℝ) ≠ 0 := by
  have hsize : i < v.size := by
    by_contra hle
    exact hi (getD_of_size_le (by omega))
  intro hzero
  have hsq := euclideanNorm_sq v
  rw [hzero, zero_pow two_ne_zero] at hsq
  have hterms := (Finset.sum_eq_zero_iff_of_nonneg fun j _ => sq_nonneg _).mp hsq.symm i
    (Finset.mem_range.mpr hsize)
  rw [sq_eq_zero_iff, norm_eq_zero] at hterms
  exact hi hterms

@[simp] theorem size_canonicalDirection (v : Array K) : (canonicalDirection v).size = v.size := by
  simp [canonicalDirection]

end Directions

section Canonical

variable {K : Type} [RCLike K] {u v : Array K} {i j : ℕ} {t : K}

/-- The entry at position `i` is the first of the entries of largest modulus. -/
structure IsFirstLargest (v : Array K) (i : ℕ) : Prop where
  /-- No entry is larger. -/
  norm_le : ∀ j, ‖v.getD j 0‖ ≤ ‖v.getD i 0‖
  /-- The entries before are smaller. -/
  norm_lt : ∀ j < i, ‖v.getD j 0‖ < ‖v.getD i 0‖

/-- The vector has norm one, and the first of its entries of largest modulus is real and
positive. -/
structure IsCanonical (v : Array K) : Prop where
  /-- The 2-norm is one. -/
  norm_eq_one : (euclideanNorm v : ℝ) = 1
  /-- The first of the largest entries is a positive real number. -/
  exists_positive : ∃ i, IsFirstLargest v i ∧ ∃ r : ℝ, 0 < r ∧ v.getD i 0 = (r : K)

/-- There is only one first of the largest entries. -/
theorem IsFirstLargest.unique (hi : IsFirstLargest v i) (hj : IsFirstLargest v j) : i = j := by
  rcases lt_trichotomy i j with hlt | heq | hlt
  · exact absurd (hi.norm_le j) (hj.norm_lt i hlt).not_ge
  · exact heq
  · exact absurd (hj.norm_le i) (hi.norm_lt j hlt).not_ge

/-- A multiple by a number other than zero has its first largest entry at the same position. -/
theorem IsFirstLargest.multiple (hi : IsFirstLargest v i) (ht : t ≠ 0)
    (h : ∀ j, u.getD j 0 = t * v.getD j 0) : IsFirstLargest u i := by
  have hpos : 0 < ‖t‖ := norm_pos_iff.mpr ht
  constructor
  · intro j
    rw [h, h, norm_mul, norm_mul]
    exact mul_le_mul_of_nonneg_left (hi.norm_le j) hpos.le
  · intro j hj
    rw [h, h, norm_mul, norm_mul]
    exact mul_lt_mul_of_pos_left (hi.norm_lt j hj) hpos

/-- The norm of a multiple. -/
theorem euclideanNorm_multiple (hsize : u.size = v.size) (h : ∀ j, u.getD j 0 = t * v.getD j 0) :
    (euclideanNorm u : ℝ) = ‖t‖ * euclideanNorm v := by
  rw [euclideanNorm_eq_sqrt, euclideanNorm_eq_sqrt, hsize]
  simp only [h, norm_mul, mul_pow]
  rw [← Finset.mul_sum, Real.sqrt_mul (sq_nonneg _), Real.sqrt_sq (norm_nonneg t)]

/-- A canonical vector is the only canonical one of its multiples. -/
theorem IsCanonical.eq_of_multiple (hu : IsCanonical u) (hv : IsCanonical v)
    (hsize : u.size = v.size) (h : ∀ j, u.getD j 0 = t * v.getD j 0) : u = v := by
  have hnorm : ‖t‖ = 1 := by
    have hmultiple := euclideanNorm_multiple hsize h
    rwa [hu.norm_eq_one, hv.norm_eq_one, mul_one, eq_comm] at hmultiple
  have ht : t ≠ 0 := norm_ne_zero_iff.mp (hnorm.trans_ne one_ne_zero)
  obtain ⟨i, hi, r, hr, hui⟩ := hu.exists_positive
  obtain ⟨j, hj, s, hs, hvj⟩ := hv.exists_positive
  obtain rfl := hi.unique (hj.multiple ht h)
  -- both largest entries are positive numbers, and so the factor is one
  have hratio : (r : K) = t * s := by rw [← hui, h, hvj]
  have hrs : r = s := by
    have hmodulus := congrArg norm hratio
    rwa [norm_mul, hnorm, one_mul, RCLike.norm_of_nonneg hr.le, RCLike.norm_of_nonneg hs.le]
      at hmodulus
  have hone : t = 1 := by
    rw [hrs] at hratio
    exact (mul_eq_right₀ (RCLike.ofReal_ne_zero.mpr hs.ne')).mp hratio.symm
  refine eq_of_getD_eq hsize fun k => ?_
  rw [h, hone, one_mul]

/-- The canonical direction of a vector other than zero is canonical, and a multiple of the vector
by a factor other than zero. -/
theorem exists_canonicalDirection (hi : v.getD i 0 ≠ 0) :
    IsCanonical (canonicalDirection v) ∧
      ∃ t : K, t ≠ 0 ∧ ∀ j, (canonicalDirection v).getD j 0 = t * v.getD j 0 := by
  let size : K := ((euclideanNorm v : ℝ) : K)
  let u := v.map (· / size)
  have hsize : size ≠ 0 := RCLike.ofReal_ne_zero.mpr (euclideanNorm_ne_zero hi)
  have hu : ∀ j, u.getD j 0 = v.getD j 0 / size := getD_map (zero_div size) v
  let first := largestIndex (fun j => ‖u.getD j 0‖) u.size
  let top := u.getD first 0
  have hui : u.getD i 0 ≠ 0 := by
    rw [hu]
    exact div_ne_zero hi hsize
  have hlargest : IsFirstLargest u first := by
    refine ⟨fun j => ?_, fun j hj => lt_largestIndex (fun j => ‖u.getD j 0‖) hj⟩
    by_cases hj : j < u.size
    · exact le_largestIndex (fun j => ‖u.getD j 0‖) hj
    · rw [getD_of_size_le (by omega), norm_zero]
      exact norm_nonneg _
  have htop : top ≠ 0 :=
    norm_pos_iff.mp ((norm_pos_iff.mpr hui).trans_le (hlargest.norm_le i))
  let turn : K := (‖top‖ : K) / top
  have hunit : ‖turn‖ = 1 := by
    rw [norm_div, RCLike.norm_ofReal, abs_norm, div_self (norm_ne_zero_iff.mpr htop)]
  have hturn : turn ≠ 0 := norm_ne_zero_iff.mp (hunit.trans_ne one_ne_zero)
  have hentry : ∀ j, (canonicalDirection v).getD j 0 = turn * u.getD j 0 := by
    intro j
    rw [mul_comm]
    exact getD_map (zero_mul turn) u j
  have hmultiple : ∀ j, (canonicalDirection v).getD j 0 = turn / size * v.getD j 0 := by
    intro j
    rw [hentry, hu]
    ring
  refine ⟨⟨?_, first, hlargest.multiple hturn hentry, ‖top‖, norm_pos_iff.mpr htop, ?_⟩,
    turn / size, div_ne_zero hturn hsize, hmultiple⟩
  · rw [euclideanNorm_multiple (size_canonicalDirection v) hmultiple, norm_div, hunit,
      RCLike.norm_of_nonneg (euclideanNorm_nonneg v), one_div_mul_cancel (euclideanNorm_ne_zero hi)]
  · rw [hentry]
    exact div_mul_cancel₀ _ htop

/-- Vectors other than zero that are multiples of each other have the same canonical direction. -/
theorem canonicalDirection_multiple (hi : v.getD i 0 ≠ 0) (ht : t ≠ 0) (hsize : u.size = v.size)
    (h : ∀ j, u.getD j 0 = t * v.getD j 0) :
    canonicalDirection (R := ℝ) u = canonicalDirection v := by
  have hu : u.getD i 0 ≠ 0 := by
    rw [h]
    exact mul_ne_zero ht hi
  obtain ⟨hcanonical, r, -, hmultiple⟩ := exists_canonicalDirection hu
  obtain ⟨hcanonical', s, hs, hmultiple'⟩ := exists_canonicalDirection hi
  refine hcanonical.eq_of_multiple (t := r * t / s) hcanonical' (by simp [hsize]) fun j => ?_
  rw [hmultiple, hmultiple', h, ← mul_assoc, ← mul_assoc, div_mul_cancel₀ _ hs]

end Canonical

section Choice

variable {K : Type} [RCLike K]

/-- The direction chosen is one of those compared. -/
theorem leastDirection_mem (v : Array K) (vs : List (Array K)) :
    leastDirection (R := ℝ) v vs ∈ v :: vs := by
  induction vs generalizing v with
  | nil => exact List.mem_singleton_self v
  | cons u us ih =>
    rw [leastDirection]
    split
    · exact List.mem_cons_of_mem v (ih u)
    · rcases List.mem_cons.mp (ih v) with h | h
      · rw [h]
        exact List.mem_cons_self
      · exact List.mem_cons_of_mem v (List.mem_cons_of_mem u h)

/-- One list of numbers comes before another exactly when it is lexicographically less. -/
theorem precedes_eq_true_iff (xs ys : List ℝ) : precedes xs ys = true ↔ xs < ys := by
  induction xs generalizing ys with
  | nil => cases ys <;> simp [precedes]
  | cons x xs ih =>
    cases ys with
    | nil => simp [precedes]
    | cons y ys =>
      rw [precedes, List.cons_lt_cons_iff]
      by_cases hxy : x = y
      · simp [hxy, ih]
      · simp [hxy]

/-- No direction compared has a smaller key than the one chosen. -/
theorem directionKey_leastDirection_le {u v : Array K} {vs : List (Array K)} (hu : u ∈ v :: vs) :
    directionKey (leastDirection (R := ℝ) v vs) ≤ directionKey (R := ℝ) u := by
  induction vs generalizing u v with
  | nil =>
    rw [List.mem_singleton.mp hu]
    exact le_rfl
  | cons w ws ih =>
    rw [leastDirection]
    by_cases hw : precedes (directionKey (R := ℝ) w) (directionKey v)
    · rw [if_pos hw]
      rcases List.mem_cons.mp hu with rfl | hu
      · exact (ih List.mem_cons_self).trans ((precedes_eq_true_iff _ _).mp hw).le
      · exact ih hu
    · rw [if_neg hw]
      rw [precedes_eq_true_iff, not_lt] at hw
      rcases List.mem_cons.mp hu with rfl | hu
      · exact ih List.mem_cons_self
      rcases List.mem_cons.mp hu with rfl | hu
      · exact (ih List.mem_cons_self).trans hw
      · exact ih (List.mem_cons_of_mem v hu)

/-- The canonical direction of column `j`. -/
noncomputable def Mat.direction (N : Mat K) (j : Fin N.cols) : Array K :=
  canonicalDirection (R := ℝ) (N.col j)

@[simp] theorem Mat.size_direction (N : Mat K) (j : Fin N.cols) :
    (N.direction j).size = N.rows := by
  rw [direction, size_canonicalDirection, size_col]

/-- From a matrix with at least one column the direction of a column is chosen that has the least
key, and a choice among several columns is written into the journal. -/
theorem exists_kernelVector_least {N : Mat K} (hN : 0 < N.cols) : ∃ j : Fin N.cols,
    (∀ k, directionKey (R := ℝ) (N.direction j) ≤ directionKey (R := ℝ) (N.direction k)) ∧
      (kernelVector N : Traced ℝ _) =
        ⟨if 1 < N.cols then [.kernelChoice N.cols] else [], .ok (N.direction j)⟩ := by
  cases hdirections : (List.range N.cols).map fun j => canonicalDirection (R := ℝ) (N.col j) with
  | nil =>
    have hlength := congrArg List.length hdirections
    rw [List.length_map, List.length_range, List.length_nil] at hlength
    omega
  | cons v vs =>
    have hmem := leastDirection_mem v vs
    rw [← hdirections] at hmem
    obtain ⟨j, hj, heq⟩ := List.mem_map.mp hmem
    have hchosen : N.direction ⟨j, List.mem_range.mp hj⟩ = leastDirection (R := ℝ) v vs := heq
    refine ⟨⟨j, List.mem_range.mp hj⟩, fun k => ?_, ?_⟩
    · rw [hchosen]
      refine directionKey_leastDirection_le ?_
      rw [← hdirections]
      exact List.mem_map.mpr ⟨k, List.mem_range.mpr k.isLt, rfl⟩
    · rw [hchosen, kernelVector]
      simp only [hdirections]
      split
      · exact Traced.bind_of_ok _ (Traced.outcome_note _)
      · rfl

/-- From a basis with at least one column the canonical direction of a column is chosen. -/
theorem exists_kernelVector {N : Mat K} (hN : 0 < N.cols) : ∃ j < N.cols,
    (kernelVector N : Traced ℝ _).outcome = .ok (canonicalDirection (R := ℝ) (N.col j)) := by
  obtain ⟨j, -, hchosen⟩ := exists_kernelVector_least hN
  refine ⟨j, j.isLt, ?_⟩
  rw [hchosen]
  rfl

end Choice

end PolynomialEquations
