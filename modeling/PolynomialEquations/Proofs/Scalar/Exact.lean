import PolynomialEquations.Scalar.Basic
import Mathlib.Algebra.BigOperators.Finprod
import Mathlib.Analysis.RCLike.Basic
import Mathlib.Analysis.Real.Sqrt

/-!
# Exact scalars

The real and the complex numbers as scalars over the real numbers. Sums become finite sums, norms
the usual norms, and the three loops of the library that run over a vector get their meaning here:
the running sum, the 2-norm and the largest modulus.
-/

namespace PolynomialEquations

/-- The nearest integer to a real number, a half going to the even neighbour. -/
noncomputable def nearestEven (x : ℝ) : ℤ :=
  if Int.fract x < 1 / 2 then ⌊x⌋
  else if 1 / 2 < Int.fract x then ⌊x⌋ + 1
  else if Even ⌊x⌋ then ⌊x⌋ else ⌊x⌋ + 1

noncomputable instance : RealFunctions ℝ where
  sqrt := Real.sqrt
  nearestInteger x := nearestEven x

noncomputable instance {K : Type} [RCLike K] : Scalar ℝ K where
  ofReal r := (r : K)
  re x := RCLike.re x
  im x := RCLike.im x
  conj x := starRingEnd K x
  modulus x := ‖x‖
  power x k := x ^ k

section Readings

variable {K : Type} [RCLike K]

@[simp] theorem scalar_ofReal (r : ℝ) : (Scalar.ofReal r : K) = (r : K) := rfl

@[simp] theorem scalar_re (x : K) : Scalar.re x = RCLike.re x := rfl

@[simp] theorem scalar_im (x : K) : Scalar.im x = RCLike.im x := rfl

@[simp] theorem scalar_conj (x : K) : Scalar.conj x = starRingEnd K x := rfl

@[simp] theorem scalar_modulus (x : K) : Scalar.modulus x = ‖x‖ := rfl

@[simp] theorem scalar_power (x : K) (k : ℤ) : Scalar.power x k = x ^ k := rfl

@[simp] theorem realFunctions_sqrt (x : ℝ) : RealFunctions.sqrt x = √x := rfl

/-- The relative size that counts as zero is positive. -/
theorem negligible_pos : (0 : ℝ) < negligible ℝ := by
  norm_num [negligible]

end Readings

section Rounding

/-- The nearest integer is at most one half away. -/
theorem abs_nearestEven_sub_le (x : ℝ) : |(nearestEven x : ℝ) - x| ≤ 1 / 2 := by
  have hfloor : (⌊x⌋ : ℝ) = x - Int.fract x := (Int.self_sub_fract x).symm
  have hnonneg := Int.fract_nonneg x
  have hlt := Int.fract_lt_one x
  rw [abs_le]
  unfold nearestEven
  split_ifs with hbelow habove heven
  · constructor <;> linarith
  · push_cast
    constructor <;> linarith
  · constructor <;> linarith
  · push_cast
    constructor <;> linarith

end Rounding

section Sums

/-- The running sum is the finite sum over the indices below its bound. -/
theorem sumTo_eq_sum {M : Type} [AddCommMonoid M] (f : ℕ → M) (n : ℕ) :
    sumTo f n = ∑ i ∈ Finset.range n, f i := by
  induction n with
  | zero => simp
  | succ n ih => rw [sumTo_succ, ih, Finset.sum_range_succ]

/-- A fold that adds a real number for every entry of a vector is a sum over its positions. -/
theorem foldl_add_eq_sum {K : Type} [Zero K] (g : K → ℝ) (v : Array K) :
    v.foldl (fun s x => s + g x) 0 = ∑ i ∈ Finset.range v.size, g (v.getD i 0) := by
  refine Array.foldl_induction
    (motive := fun i s => s = ∑ j ∈ Finset.range i, g (v.getD j 0)) (by simp) ?_
  intro i s hs
  rw [Finset.sum_range_succ, hs]
  simp

/-- Conjugation respects the sums over all exponents. -/
theorem conj_finsum {K : Type} [RCLike K] (f : ℤ → K) :
    starRingEnd K (∑ᶠ i, f i) = ∑ᶠ i, starRingEnd K (f i) :=
  AddEquiv.map_finsum (starRingAut (R := K)).toAddEquiv f

end Sums

section Norms

variable {K : Type} [RCLike K]

/-- The squared 2-norm is the sum of the squared absolute values. -/
theorem squaredNorm_eq_sum (v : Array K) :
    squaredNorm v = ∑ i ∈ Finset.range v.size, ‖v.getD i 0‖ ^ 2 := by
  rw [squaredNorm, foldl_add_eq_sum]
  refine Finset.sum_congr rfl fun i _ => ?_
  rw [scalar_re, scalar_im, RCLike.norm_sq_eq_def]

/-- The 2-norm is the root of the sum of the squared absolute values. -/
theorem euclideanNorm_eq_sqrt (v : Array K) :
    euclideanNorm v = √(∑ i ∈ Finset.range v.size, ‖v.getD i 0‖ ^ 2) := by
  rw [euclideanNorm, squaredNorm_eq_sum, realFunctions_sqrt]

/-- The square of the 2-norm is the sum of the squared absolute values. -/
theorem euclideanNorm_sq (v : Array K) :
    euclideanNorm v ^ 2 = ∑ i ∈ Finset.range v.size, ‖v.getD i 0‖ ^ 2 := by
  rw [euclideanNorm_eq_sqrt, Real.sq_sqrt (Finset.sum_nonneg fun i _ => sq_nonneg _)]

/-- A 2-norm is not negative. -/
theorem euclideanNorm_nonneg (v : Array K) : 0 ≤ euclideanNorm v := by
  rw [euclideanNorm_eq_sqrt]
  exact Real.sqrt_nonneg _

/-- For real numbers the larger of two is their maximum. -/
theorem larger_eq_max (a b : ℝ) : larger a b = max a b := by
  unfold larger
  by_cases hba : b ≤ a
  · rw [if_pos hba, max_eq_left hba]
  · have hab : a ≤ b := le_of_not_ge hba
    rw [if_neg hba, if_pos hab, max_eq_right hab]

/-- The largest of zero and finitely many real numbers is at most a bound exactly when the bound is
not negative and none of the numbers exceeds it. -/
theorem largestTo_le_iff (f : ℕ → ℝ) (n : ℕ) (B : ℝ) :
    largestTo f n ≤ B ↔ 0 ≤ B ∧ ∀ i < n, f i ≤ B := by
  induction n with
  | zero => simp [largestTo]
  | succ n ih =>
    rw [largestTo, larger_eq_max, max_le_iff, ih, Nat.forall_lt_succ_right, and_assoc]

/-- The largest modulus of a vector is at most a bound exactly when the bound is not negative and
no entry exceeds it. -/
theorem maximumNorm_le_iff (v : Array K) (B : ℝ) :
    maximumNorm v ≤ B ↔ 0 ≤ B ∧ ∀ i, ‖v.getD i 0‖ ≤ B := by
  have hfold : maximumNorm v ≤ B ↔ 0 ≤ B ∧ ∀ i < v.size, ‖v.getD i 0‖ ≤ B := by
    rw [maximumNorm]
    refine Array.foldl_induction
      (motive := fun i (m : ℝ) => m ≤ B ↔ 0 ≤ B ∧ ∀ j < i, ‖v.getD j 0‖ ≤ B) (by simp) ?_
    intro i m hm
    rw [larger_eq_max, max_le_iff, hm, Nat.forall_lt_succ_right, and_assoc]
    simp
  rw [hfold]
  refine and_congr_right fun hB => ⟨fun h i => ?_, fun h i _ => h i⟩
  by_cases hi : i < v.size
  · exact h i hi
  · rw [Array.getD_eq_getD_getElem?, Array.getElem?_eq_none (by omega), Option.getD_none, norm_zero]
    exact hB

/-- The largest modulus of a vector is not negative. -/
theorem maximumNorm_nonneg (v : Array K) : 0 ≤ maximumNorm v :=
  ((maximumNorm_le_iff v _).mp le_rfl).1

/-- No entry exceeds the largest modulus. -/
theorem norm_getD_le_maximumNorm (v : Array K) (i : ℕ) : ‖v.getD i 0‖ ≤ maximumNorm v :=
  ((maximumNorm_le_iff v _).mp le_rfl).2 i

/-- The largest modulus is at most the 2-norm. -/
theorem maximumNorm_le_euclideanNorm (v : Array K) : maximumNorm v ≤ euclideanNorm v := by
  rw [maximumNorm_le_iff]
  refine ⟨euclideanNorm_nonneg v, fun i => ?_⟩
  by_cases hi : i < v.size
  · refine abs_le_of_sq_le_sq' ?_ (euclideanNorm_nonneg v) |>.2
    rw [euclideanNorm_sq]
    exact Finset.single_le_sum (f := fun i => ‖v.getD i 0‖ ^ 2) (fun j _ => sq_nonneg _)
      (Finset.mem_range.mpr hi)
  · rw [Array.getD_eq_getD_getElem?, Array.getElem?_eq_none (by omega), Option.getD_none, norm_zero]
    exact euclideanNorm_nonneg v

/-- The 2-norm is limited by the largest modulus and the size. -/
theorem euclideanNorm_le_maximumNorm (v : Array K) :
    euclideanNorm v ≤ √v.size * maximumNorm v := by
  refine abs_le_of_sq_le_sq' ?_ (mul_nonneg (Real.sqrt_nonneg _) (maximumNorm_nonneg v)) |>.2
  rw [euclideanNorm_sq, mul_pow, Real.sq_sqrt (Nat.cast_nonneg _)]
  calc ∑ i ∈ Finset.range v.size, ‖v.getD i 0‖ ^ 2
      ≤ ∑ _i ∈ Finset.range v.size, maximumNorm v ^ 2 := by
        refine Finset.sum_le_sum fun i _ => ?_
        exact pow_le_pow_left₀ (norm_nonneg _) (norm_getD_le_maximumNorm v i) 2
    _ = v.size * maximumNorm v ^ 2 := by
        rw [Finset.sum_const, Finset.card_range, nsmul_eq_mul]

end Norms

end PolynomialEquations
