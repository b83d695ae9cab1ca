import PolynomialEquations.Matrix.Reflection
import PolynomialEquations.Proofs.Matrix.Entries
import Mathlib.LinearAlgebra.UnitaryGroup
import Mathlib.Tactic.LinearCombination

/-!
# Reflections of stored matrices

Reflecting the rows of a stored matrix multiplies it from the left by `1 - 2 v vᴴ`, and reflecting
the columns multiplies it from the right, where `v` is the stored vector moved to the positions from
`j` on. The reflector chosen for a vector maps it onto a multiple of a unit vector.
-/

namespace PolynomialEquations

open Matrix

section Reflections

variable {ι K : Type} [Fintype ι] [DecidableEq ι] [CommRing K] [StarRing K]

/-- The reflection `1 - 2 v vᴴ`. -/
def reflection (v : ι → K) : Matrix ι ι K := 1 - vecMulVec (v + v) (star v)

omit [Fintype ι] in
/-- A reflection is its own adjoint. -/
theorem conjTranspose_reflection (v : ι → K) : (reflection v)ᴴ = reflection v := by
  rw [reflection, conjTranspose_sub, conjTranspose_one, conjTranspose_vecMulVec, star_star,
    star_add, vecMulVec_add, add_vecMulVec]

/-- A reflection subtracts a multiple of its vector. -/
theorem reflection_mulVec (v x : ι → K) :
    reflection v *ᵥ x = x - (star v ⬝ᵥ x) • (v + v) := by
  rw [reflection, sub_mulVec, one_mulVec, vecMulVec_mulVec, op_smul_eq_smul]

/-- The entries of a matrix reflected from the left. -/
theorem reflection_mul_apply {κ : Type} (v : ι → K) (M : Matrix ι κ K) (i : ι) (c : κ) :
    (reflection v * M) i c = M i c - (v i + v i) * ∑ k, star (v k) * M k c := by
  rw [reflection, Matrix.sub_mul, Matrix.one_mul, vecMulVec_mul]
  rfl

/-- The entries of a matrix reflected from the right. -/
theorem mul_reflection_apply {κ : Type} (v : ι → K) (M : Matrix κ ι K) (i : κ) (c : ι) :
    (M * reflection v) i c =
      M i c - (∑ k, M i k * v k + ∑ k, M i k * v k) * star (v c) := by
  rw [reflection, Matrix.mul_sub, Matrix.mul_one, mul_vecMulVec, mulVec_add]
  rfl

/-- A reflection along a unit vector is unitary. -/
theorem reflection_mem_unitaryGroup {v : ι → K} (hv : star v ⬝ᵥ v = 1) :
    reflection v ∈ unitaryGroup ι K := by
  have hsquare : vecMulVec (v + v) (star v) * vecMulVec (v + v) (star v) =
      vecMulVec (v + v) (star v) + vecMulVec (v + v) (star v) := by
    rw [vecMulVec_mul_vecMulVec, dotProduct_add, hv, add_smul, one_smul, vecMulVec_add]
  rw [mem_unitaryGroup_iff, star_eq_conjTranspose, conjTranspose_reflection, reflection,
    Matrix.sub_mul, Matrix.one_mul, Matrix.mul_sub, Matrix.mul_one, hsquare]
  abel

end Reflections

section Directions

variable {ι K : Type} [Fintype ι] [DecidableEq ι] [RCLike K]

omit [DecidableEq ι] in
/-- The product of a vector with its conjugate is the sum of the squared absolute values. -/
theorem star_dotProduct_self (v : ι → K) : star v ⬝ᵥ v = ((∑ i, ‖v i‖ ^ 2 : ℝ) : K) := by
  rw [dotProduct, RCLike.ofReal_sum]
  refine Finset.sum_congr rfl fun i _ => ?_
  rw [Pi.star_apply, RCLike.star_def, RCLike.conj_mul, RCLike.ofReal_pow]

/-- A reflection along the direction of `u` takes `u` away from a vector whose product with `u` is
half the squared length of `u`. -/
theorem reflection_smul_mulVec {u x : ι → K} {s : ℝ} (hs : s ≠ 0)
    (hu : star u ⬝ᵥ u = ((s ^ 2 : ℝ) : K)) (hx : star u ⬝ᵥ u = 2 * (star u ⬝ᵥ x)) :
    reflection ((s : K)⁻¹ • u) *ᵥ x = x - u := by
  have hunit : (s : K)⁻¹ * (s : K)⁻¹ * (2 * (star u ⬝ᵥ x)) = 1 := by
    rw [← hx, hu, RCLike.ofReal_pow, sq, ← mul_inv]
    exact inv_mul_cancel₀
      (mul_ne_zero (RCLike.ofReal_ne_zero.mpr hs) (RCLike.ofReal_ne_zero.mpr hs))
  rw [reflection_mulVec]
  funext i
  simp only [Pi.sub_apply, Pi.smul_apply, Pi.add_apply, smul_eq_mul, star_smul, smul_dotProduct,
    RCLike.star_def, map_inv₀, RCLike.conj_ofReal]
  linear_combination (-u i) * hunit

/-- Adding a multiple of a unit vector, of the length of `x` and in the direction of the entry
there, gives a vector whose product with `x` is half its squared length. -/
theorem star_dotProduct_add_single {x : ι → K} {k : ι} {p : K} {r : ℝ}
    (hr : ∑ i, ‖x i‖ ^ 2 = r ^ 2) (hp : ‖p‖ = 1) (hpx : star p * x k = (‖x k‖ : K)) :
    star (x + Pi.single k (p * r)) ⬝ᵥ x = ((r ^ 2 + r * ‖x k‖ : ℝ) : K) ∧
      star (x + Pi.single k (p * r)) ⬝ᵥ (x + Pi.single k (p * r)) =
        ((2 * (r ^ 2 + r * ‖x k‖) : ℝ) : K) := by
  have hfirst : star (p * r : K) * x k = ((r * ‖x k‖ : ℝ) : K) := by
    rw [star_mul', RCLike.star_def, RCLike.conj_ofReal, mul_right_comm, ← RCLike.star_def, hpx,
      RCLike.ofReal_mul, mul_comm]
  have hsecond : star (x k) * (p * r) = ((r * ‖x k‖ : ℝ) : K) := by
    have hconj := congrArg star hfirst
    rwa [star_mul', star_star, mul_comm, RCLike.star_def, RCLike.conj_ofReal] at hconj
  have hlength : star (p * r : K) * (p * r) = ((r ^ 2 : ℝ) : K) := by
    rw [RCLike.star_def, RCLike.conj_mul, norm_mul, hp, one_mul, RCLike.norm_ofReal,
      ← RCLike.ofReal_pow, sq_abs]
  have hproduct : star (x + Pi.single k (p * r)) ⬝ᵥ x = ((r ^ 2 + r * ‖x k‖ : ℝ) : K) := by
    rw [star_add, ← Pi.single_star, add_dotProduct, single_dotProduct, star_dotProduct_self, hr,
      hfirst, RCLike.ofReal_add]
  refine ⟨hproduct, ?_⟩
  rw [dotProduct_add, hproduct, dotProduct_single, Pi.star_apply, Pi.add_apply, Pi.single_eq_same,
    star_add, add_mul, hsecond, hlength, ← RCLike.ofReal_add, ← RCLike.ofReal_add]
  congr 1
  ring

end Directions

section Stored

variable {K : Type}

/-- The vector `w` at the positions from `j` on, with zeros before. -/
def placedFrom [Zero K] (m j : ℕ) (w : Array K) : Fin m → K :=
  fun i => if (i : ℕ) < j then 0 else w.getD (i - j) 0

theorem placedFrom_of_lt [Zero K] {m j : ℕ} (w : Array K) {i : Fin m} (hi : (i : ℕ) < j) :
    placedFrom m j w i = 0 :=
  if_pos hi

/-- A sum over all positions whose terms before `j` vanish starts at `j`. -/
theorem sum_eq_sum_from [AddCommMonoid K] {m j : ℕ} {f : ℕ → K} (hf : ∀ i < j, f i = 0) :
    ∑ i : Fin m, f i = ∑ i ∈ Finset.range (m - j), f (j + i) := by
  rw [Fin.sum_univ_eq_sum_range f m]
  by_cases hj : j ≤ m
  · obtain ⟨n, rfl⟩ := Nat.exists_eq_add_of_le hj
    rw [Finset.sum_range_add, Finset.sum_eq_zero fun i hi => hf i (Finset.mem_range.mp hi),
      zero_add, Nat.add_sub_cancel_left]
  · rw [show m - j = 0 by omega, Finset.range_zero, Finset.sum_empty]
    exact Finset.sum_eq_zero fun i hi => hf i (by rw [Finset.mem_range] at hi; omega)

variable [RCLike K]

/-- Reflecting the rows of a stored matrix is multiplying it from the left. -/
theorem toMatrix_reflectRows (w : Array K) (j : ℕ) {A : Mat K} {m n : ℕ} (hm : A.rows = m)
    (hn : A.cols = n) : (reflectRows (R := ℝ) w j A).toMatrix m n =
      reflection (placedFrom m j w) * A.toMatrix m n := by
  subst hm hn
  ext i c
  have hdot : ∑ k, star (placedFrom A.rows j w k) * A.toMatrix A.rows A.cols k c =
      ∑ k ∈ Finset.range (A.rows - j), Scalar.conj (R := ℝ) (w.getD k 0) * A.get (j + k) c := by
    refine (sum_eq_sum_from (j := j)
      (f := fun k => star (if k < j then 0 else w.getD (k - j) 0) * A.get k c) ?_).trans ?_
    · intro k hk
      rw [if_pos hk, star_zero, zero_mul]
    · refine Finset.sum_congr rfl fun k _ => ?_
      rw [if_neg (by omega), Nat.add_sub_cancel_left]
      rfl
  rw [reflection_mul_apply, hdot, Mat.toMatrix_apply, reflectRows, Mat.get_ofFn _ i.isLt c.isLt,
    getD_ofFn, dif_pos c.isLt, sumTo_eq_sum, Mat.toMatrix_apply, placedFrom]
  by_cases hi : (i : ℕ) < j
  · rw [if_pos hi, if_pos hi, add_zero, zero_mul, sub_zero]
  · rw [if_neg hi, if_neg hi]

/-- Reflecting the columns of a stored matrix is multiplying it from the right. -/
theorem toMatrix_reflectCols (w : Array K) (j : ℕ) {A : Mat K} {m n : ℕ} (hm : A.rows = m)
    (hn : A.cols = n) : (reflectCols (R := ℝ) w j A).toMatrix m n =
      A.toMatrix m n * reflection (placedFrom n j w) := by
  subst hm hn
  ext i c
  have hdot : ∑ k, A.toMatrix A.rows A.cols i k * placedFrom A.cols j w k =
      ∑ k ∈ Finset.range (A.cols - j), A.get i (j + k) * w.getD k 0 := by
    refine (sum_eq_sum_from (j := j)
      (f := fun k => A.get i k * (if k < j then 0 else w.getD (k - j) 0)) ?_).trans ?_
    · intro k hk
      rw [if_pos hk, mul_zero]
    · refine Finset.sum_congr rfl fun k _ => ?_
      rw [if_neg (by omega), Nat.add_sub_cancel_left]
  rw [mul_reflection_apply, hdot, Mat.toMatrix_apply, reflectCols, Mat.get_ofFn _ i.isLt c.isLt,
    getD_ofFn, dif_pos i.isLt, sumTo_eq_sum, Mat.toMatrix_apply, placedFrom]
  by_cases hc : (c : ℕ) < j
  · rw [if_pos hc, if_pos hc, star_zero, mul_zero, sub_zero]
  · rw [if_neg hc, if_neg hc]
    rfl

end Stored

section Choice

variable {K : Type} [RCLike K] {m j : ℕ}

/-- Placing a vector keeps its length. -/
theorem sum_norm_placedFrom {w : Array K} (hw : w.size = m - j) :
    ∑ i, ‖placedFrom m j w i‖ ^ 2 = euclideanNorm w ^ 2 := by
  rw [euclideanNorm_sq, hw]
  refine (sum_eq_sum_from (j := j)
    (f := fun i => ‖if i < j then 0 else w.getD (i - j) 0‖ ^ 2) ?_).trans ?_
  · intro i hi
    rw [if_pos hi, norm_zero, zero_pow two_ne_zero]
  · refine Finset.sum_congr rfl fun i _ => ?_
    rw [if_neg (by omega), Nat.add_sub_cancel_left]

/-- Adding to the first entry of a vector, read where the vector is placed. -/
theorem placedFrom_modify (hj : j < m) {x : Array K} (hx : x.size = m - j) (t : K) :
    placedFrom m j (x.modify 0 (· + t)) = placedFrom m j x + Pi.single ⟨j, hj⟩ t := by
  funext i
  rw [Pi.add_apply, placedFrom, placedFrom]
  rcases lt_trichotomy (i : ℕ) j with hi | hi | hi
  · rw [if_pos hi, if_pos hi, Pi.single_eq_of_ne (Fin.ne_of_val_ne (by simp; omega)), add_zero]
  · obtain rfl : i = ⟨j, hj⟩ := Fin.ext hi
    rw [if_neg (lt_irrefl j), if_neg (lt_irrefl j), Pi.single_eq_same, Nat.sub_self]
    simp only [Array.getD_eq_getD_getElem?, Array.getElem?_modify]
    rw [Array.getElem?_eq_getElem (by omega)]
    rfl
  · rw [if_neg (by omega), if_neg (by omega),
      Pi.single_eq_of_ne (Fin.ne_of_val_ne (by simp; omega)), add_zero]
    simp only [Array.getD_eq_getD_getElem?, Array.getElem?_modify]
    rw [if_neg (by omega)]

/-- Dividing a vector, read where the vector is placed. -/
theorem placedFrom_map_div (w : Array K) (s : K) :
    placedFrom m j (w.map (· / s)) = s⁻¹ • placedFrom m j w := by
  funext i
  rw [Pi.smul_apply, smul_eq_mul, placedFrom, placedFrom, getD_map (zero_div s), div_eq_inv_mul]
  split
  · rw [mul_zero]
  · rfl

/-- The direction of a number, one for zero, has length one and turns the number into its absolute
value. -/
theorem phase_spec (z : K) :
    ‖(if z == 0 then 1 else z / (‖z‖ : K) : K)‖ = 1 ∧
      star (if z == 0 then 1 else z / (‖z‖ : K) : K) * z = (‖z‖ : K) := by
  by_cases hz : z = 0
  · rw [if_pos (beq_iff_eq.mpr hz), hz]
    simp
  · have hnorm : (‖z‖ : K) ≠ 0 := RCLike.ofReal_ne_zero.mpr (norm_ne_zero_iff.mpr hz)
    rw [if_neg (by rwa [beq_iff_eq])]
    constructor
    · rw [norm_div, RCLike.norm_ofReal, abs_norm, div_self (norm_ne_zero_iff.mpr hz)]
    · rw [star_div₀, RCLike.star_def, RCLike.conj_ofReal, div_mul_eq_mul_div,
        RCLike.conj_mul, sq, mul_div_assoc, div_self hnorm, mul_one]

/-- The reflector of a vector with a norm other than zero has length one, and its reflection leaves
of the vector only an entry in the first place, as large as the norm. -/
theorem reflector_spec (hj : j < m) {x : Array K} (hx : x.size = m - j)
    (hnorm : (euclideanNorm x : ℝ) ≠ 0) :
    star (placedFrom m j (reflector (R := ℝ) x)) ⬝ᵥ placedFrom m j (reflector (R := ℝ) x) = 1 ∧
      ∃ t : K, ‖t‖ = euclideanNorm x ∧
        reflection (placedFrom m j (reflector (R := ℝ) x)) *ᵥ placedFrom m j x =
          Pi.single ⟨j, hj⟩ t := by
  let r : ℝ := euclideanNorm x
  let phase : K := if x.getD 0 0 == 0 then 1 else x.getD 0 0 / (‖x.getD 0 0‖ : K)
  let u := x.modify 0 (· + phase * (r : K))
  let s : ℝ := euclideanNorm u
  have hreflector : reflector (R := ℝ) x = u.map (· / (s : K)) := rfl
  have hr : 0 < r := lt_of_le_of_ne (euclideanNorm_nonneg x) hnorm.symm
  obtain ⟨hunit, hturn⟩ : ‖phase‖ = 1 ∧ star phase * x.getD 0 0 = (‖x.getD 0 0‖ : K) :=
    phase_spec (x.getD 0 0)
  have hfirst : placedFrom m j x ⟨j, hj⟩ = x.getD 0 0 := by
    rw [placedFrom, if_neg (lt_irrefl j), Nat.sub_self]
  have hplaced : placedFrom m j u = placedFrom m j x + Pi.single ⟨j, hj⟩ (phase * r) :=
    placedFrom_modify hj hx _
  obtain ⟨hproduct, hlength⟩ := star_dotProduct_add_single (k := ⟨j, hj⟩) (r := r)
    (sum_norm_placedFrom hx) hunit (by rw [hfirst, hturn])
  rw [← hplaced] at hproduct hlength
  have hsquare : star (placedFrom m j u) ⬝ᵥ placedFrom m j u = ((s ^ 2 : ℝ) : K) := by
    rw [star_dotProduct_self, sum_norm_placedFrom (Array.size_modify.trans hx)]
  have hs : s ≠ 0 := by
    intro hzero
    have heq := RCLike.ofReal_injective (hsquare.symm.trans hlength)
    rw [hzero, zero_pow two_ne_zero] at heq
    exact absurd heq (by positivity)
  rw [hreflector, placedFrom_map_div]
  refine ⟨?_, -(phase * r), ?_, ?_⟩
  · have hsK : (s : K) ≠ 0 := RCLike.ofReal_ne_zero.mpr hs
    rw [star_smul, smul_dotProduct, dotProduct_smul, hsquare, RCLike.star_def, map_inv₀,
      RCLike.conj_ofReal, smul_eq_mul, smul_eq_mul, RCLike.ofReal_pow, sq,
      inv_mul_cancel_left₀ hsK, inv_mul_cancel₀ hsK]
  · rw [norm_neg, norm_mul, hunit, one_mul, RCLike.norm_ofReal, abs_of_pos hr]
  · rw [reflection_smul_mulVec hs hsquare, hplaced, sub_add_cancel_left, Pi.single_neg]
    rw [hlength, hproduct, RCLike.ofReal_mul, RCLike.ofReal_ofNat]

end Choice

end PolynomialEquations
