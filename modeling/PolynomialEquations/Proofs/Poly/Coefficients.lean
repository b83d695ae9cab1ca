import PolynomialEquations.Poly.Arithmetic
import PolynomialEquations.Proofs.Poly.NormalForm
import PolynomialEquations.Proofs.Scalar.Exact
import Mathlib.Algebra.BigOperators.Intervals

/-!
# Arithmetic coefficient by coefficient

Sums, differences, negatives and quotients act on the coefficient at every exponent, and a product
sums the products of coefficients whose exponents add up. A result is ordinary when all operands
are, and no window that arithmetic builds for an ordinary result starts at a negative exponent, so
the check of the window never fails.
-/

namespace PolynomialEquations

section Convolution

variable {K : Type} [Semiring K]

/-- A product of entries vanishes when one of the positions lies behind the end of its vector. -/
theorem getD_mul_getD_eq_zero {u v : Array K} {i j : ℕ} (h : u.size ≤ i ∨ v.size ≤ j) :
    u.getD i 0 * v.getD j 0 = 0 := by
  rcases h with hu | hv
  · rw [getD_of_size_le hu, zero_mul]
  · rw [getD_of_size_le hv, mul_zero]

/-- Entry `n` of a convolution sums the products of entries whose positions add up to `n`. -/
theorem getD_convolution (u v : Array K) (n : ℕ) :
    (Poly.convolution u v).getD n 0 =
      ∑ i ∈ Finset.range (n + 1), u.getD i 0 * v.getD (n - i) 0 := by
  rw [Poly.convolution, getD_ofFn]
  by_cases hn : n < u.size + v.size - 1
  · rw [dif_pos hn, Poly.convolutionEntry, sumTo_eq_sum,
      ← Finset.sum_Ico_eq_sum_range (fun i => u.getD i 0 * v.getD (n - i) 0)]
    refine Finset.sum_subset (fun i hi => ?_) fun i hi hout => getD_mul_getD_eq_zero ?_
    · simp only [Finset.mem_Ico, Finset.mem_range] at hi ⊢
      omega
    · -- the loop leaves out the indices that read past the end of one of the two vectors
      simp only [Finset.mem_Ico, Finset.mem_range, not_and, not_lt] at hi hout
      omega
  · rw [dif_neg hn]
    refine (Finset.sum_eq_zero fun i hi => getD_mul_getD_eq_zero ?_).symm
    rw [Finset.mem_range] at hi
    omega

end Convolution

/-- A sum over all exponents of terms that vanish outside a window is a sum over the window. -/
theorem finsum_eq_sum_window {M : Type} [AddCommMonoid M] {f : ℤ → M} {first : ℤ} {n : ℕ}
    (hf : ∀ k, f k ≠ 0 → first ≤ k ∧ k < first + n) :
    ∑ᶠ k, f k = ∑ i ∈ Finset.range n, f (first + i) := by
  let exponent : ℕ ↪ ℤ := ⟨fun i => first + i, fun i j hij => by simpa using hij⟩
  rw [finsum_eq_sum_of_support_subset (s := (Finset.range n).map exponent), Finset.sum_map]
  · rfl
  · intro k hk
    obtain ⟨hlow, hhigh⟩ := hf k hk
    rw [Finset.mem_coe, Finset.mem_map]
    refine ⟨(k - first).toNat, Finset.mem_range.mpr (by omega), ?_⟩
    change first + ((k - first).toNat : ℤ) = k
    omega

/-- A result is ordinary exactly when both operands are. -/
theorem Variant.join_eq_ordinary_iff {v w : Variant} :
    v.join w = .ordinary ↔ v = .ordinary ∧ w = .ordinary := by
  cases v <;> cases w <;> simp [Variant.join]

namespace Poly

section Windows

variable {K : Type} {a b : Poly K}

/-- Only the exponents of the window have coefficients other than zero. -/
theorem finite_support_coeff [Zero K] (a : Poly K) : a.coeff.support.Finite :=
  (Finset.Icc a.first a.last).finite_toSet.subset fun _ hk =>
    Finset.mem_coe.mpr (Finset.mem_Icc.mpr (mem_window_of_coeff_ne_zero hk))

/-- A window of an ordinary polynomial starts at no negative exponent. -/
theorem first_nonneg_of_ordinary (ha : a.variant = .ordinary) : 0 ≤ a.first :=
  (first_eq_zero_of_ordinary ha).ge

/-- The window of an ordinary sum starts at no negative exponent. -/
theorem min_first_nonneg (h : a.variant.join b.variant = .ordinary) : 0 ≤ min a.first b.first := by
  obtain ⟨ha, hb⟩ := Variant.join_eq_ordinary_iff.mp h
  exact le_min (first_nonneg_of_ordinary ha) (first_nonneg_of_ordinary hb)

/-- The window of an ordinary product starts at no negative exponent. -/
theorem first_add_first_nonneg (h : a.variant.join b.variant = .ordinary) :
    0 ≤ a.first + b.first := by
  obtain ⟨ha, hb⟩ := Variant.join_eq_ordinary_iff.mp h
  exact add_nonneg (first_nonneg_of_ordinary ha) (first_nonneg_of_ordinary hb)

/-- A window that does not start at a negative exponent passes the check. -/
theorem assemble?_eq [Zero K] [BEq K] {v : Variant} {first : ℤ} (h : v = .ordinary → 0 ≤ first)
    (c : Array K) (s : String) : assemble? v first c s = .ok (assemble v first c s) :=
  if_neg fun hv => (h hv.1).not_gt hv.2

end Windows

section Change

variable {K : Type} [Zero K] [BEq K]

/-- A change of the coefficients keeps the kind. -/
@[simp] theorem variant_mapCoef (f : K → K) (a : Poly K) : (a.mapCoef f).variant = a.variant :=
  variant_assemble _ _ _ _

/-- A change of the coefficients keeps the symbol. -/
@[simp] theorem symbol_mapCoef (f : K → K) (a : Poly K) : (a.mapCoef f).symbol = a.symbol :=
  symbol_assemble _ _ _ _

/-- The check of the window never fails for a change of the coefficients. -/
theorem mapCoef?_eq (f : K → K) (a : Poly K) : a.mapCoef? f = .ok (a.mapCoef f) :=
  assemble?_eq first_nonneg_of_ordinary _ _

variable [LawfulBEq K]

/-- A change of the coefficients that keeps zero acts on the coefficient at every exponent. -/
theorem coeff_mapCoef {f : K → K} (hf : f 0 = 0) (a : Poly K) (k : ℤ) :
    (a.mapCoef f).coeff k = f (a.coeff k) := by
  rw [mapCoef, coeff_assemble first_nonneg_of_ordinary, coeff_eq_windowCoeff, windowCoeff,
    windowCoeff]
  split
  · exact getD_map hf _ _
  · exact hf.symm

/-- A constant has one coefficient, at exponent zero. -/
theorem coeff_constant (t : K) (s : String) (k : ℤ) :
    (constant t s).coeff k = if k = 0 then t else 0 := by
  rw [constant, coeff_ofCoef, windowCoeff]
  by_cases hk : k = 0
  · rw [if_pos hk, if_pos (by omega), hk]
    rfl
  · rw [if_neg hk]
    split
    · exact getD_of_size_le (by simp only [List.size_toArray, List.length_singleton]; omega)
    · rfl

end Change

section Sum

variable {K : Type} [BEq K] [AddMonoid K] (a b : Poly K)

/-- A sum is of the common kind of its terms. -/
@[simp] theorem variant_add : (a + b).variant = a.variant.join b.variant :=
  variant_assemble _ _ _ _

/-- A sum takes its symbol from the first term. -/
@[simp] theorem symbol_add : (a + b).symbol = a.symbol := symbol_assemble _ _ _ _

/-- The check of the window never fails for a sum. -/
theorem add?_eq : a.add? b = .ok (a + b) := assemble?_eq min_first_nonneg _ _

/-- A sum has the sum of the coefficients at every exponent. -/
theorem coeff_add [LawfulBEq K] (k : ℤ) : (a + b).coeff k = a.coeff k + b.coeff k := by
  change (assemble (a.variant.join b.variant) (min a.first b.first) (sums a b) _).coeff k = _
  rw [coeff_assemble min_first_nonneg, windowCoeff]
  by_cases hlow : min a.first b.first ≤ k
  · rw [if_pos hlow, sums, getD_ofFn]
    split
    · next hk =>
      have hindex : min a.first b.first + ((k - min a.first b.first).toNat : ℤ) = k := by omega
      dsimp only
      rw [hindex, zero_add]
    · next hk =>
      rw [coeff_of_last_lt (a := a) (by omega), coeff_of_last_lt (a := b) (by omega), add_zero]
  · rw [if_neg hlow, coeff_of_lt_first (a := a) (by omega), coeff_of_lt_first (a := b) (by omega),
      add_zero]

end Sum

section Product

variable {K : Type} [BEq K] [Semiring K] (a b : Poly K)

/-- A product is of the common kind of its factors. -/
@[simp] theorem variant_mul : (a * b).variant = a.variant.join b.variant :=
  variant_assemble _ _ _ _

/-- The check of the window never fails for a product. -/
theorem mul?_eq : a.mul? b = .ok (a * b) := assemble?_eq first_add_first_nonneg _ _

variable [LawfulBEq K]

/-- A product sums, at every exponent, the products of coefficients whose exponents add up to it. -/
theorem coeff_mul (k : ℤ) : (a * b).coeff k = ∑ᶠ i : ℤ, a.coeff i * b.coeff (k - i) := by
  change (assemble (a.variant.join b.variant) (a.first + b.first)
    (convolution a.coef b.coef) _).coeff k = _
  have hwindow : ∀ i, a.coeff i * b.coeff (k - i) ≠ 0 → a.first ≤ i ∧ i ≤ k - b.first := by
    intro i hi
    have ha := (mem_window_of_coeff_ne_zero (left_ne_zero_of_mul hi)).1
    have hb := (mem_window_of_coeff_ne_zero (right_ne_zero_of_mul hi)).1
    omega
  rw [coeff_assemble first_add_first_nonneg, windowCoeff]
  by_cases hlow : a.first + b.first ≤ k
  · let n := (k - (a.first + b.first)).toNat
    have hrange : ∀ i, a.coeff i * b.coeff (k - i) ≠ 0 →
        a.first ≤ i ∧ i < a.first + (n + 1 : ℕ) := by
      intro i hi
      have := hwindow i hi
      omega
    rw [if_pos hlow, getD_convolution, finsum_eq_sum_window hrange]
    refine Finset.sum_congr rfl fun i hi => ?_
    rw [Finset.mem_range] at hi
    have hindex : k - (a.first + i) = b.first + ((n - i : ℕ) : ℤ) := by omega
    rw [hindex, coeff_first_add, coeff_first_add]
  · rw [if_neg hlow]
    refine (finsum_eq_zero_of_forall_eq_zero fun i => ?_).symm
    by_contra hi
    have := hwindow i hi
    omega

end Product

section Negative

variable {K : Type} [BEq K] [AddGroup K] (a b : Poly K)

/-- The negative is of the same kind. -/
@[simp] theorem variant_neg : (-a).variant = a.variant := variant_mapCoef _ a

/-- The negative has the same symbol. -/
@[simp] theorem symbol_neg : (-a).symbol = a.symbol := symbol_mapCoef _ a

/-- The check of the window never fails for the negative. -/
theorem neg?_eq : a.neg? = .ok (-a) := mapCoef?_eq _ a

/-- The negative has the negative coefficient at every exponent. -/
theorem coeff_neg [LawfulBEq K] (k : ℤ) : (-a).coeff k = -a.coeff k := coeff_mapCoef neg_zero a k

/-- A difference has the difference of the coefficients at every exponent. -/
theorem coeff_sub [LawfulBEq K] (k : ℤ) : (a - b).coeff k = a.coeff k - b.coeff k := by
  change (a + -b).coeff k = _
  rw [coeff_add, coeff_neg, sub_eq_add_neg]

end Negative

section Quotient

variable {K : Type} [BEq K] [DivisionRing K] (a : Poly K) (t : K)

/-- The check of the window never fails for a quotient by a scalar. -/
theorem divScalar?_eq : a.divScalar? t = .ok (a.divScalar t) := mapCoef?_eq _ a

/-- A quotient by a scalar divides the coefficient at every exponent. -/
theorem coeff_divScalar [LawfulBEq K] (k : ℤ) : (a.divScalar t).coeff k = a.coeff k / t :=
  coeff_mapCoef (zero_div t) a k

end Quotient

/-- Conjugation conjugates the coefficient at every exponent. -/
theorem coeff_conj {K : Type} [RCLike K] [BEq K] [LawfulBEq K] (a : Poly K) (k : ℤ) :
    a.conj.coeff k = starRingEnd K (a.coeff k) :=
  coeff_mapCoef (f := Scalar.conj) (map_zero (starRingEnd K)) a k

end Poly

end PolynomialEquations
