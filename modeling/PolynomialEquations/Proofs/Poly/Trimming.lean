import PolynomialEquations.Poly.Basic
import PolynomialEquations.Proofs.Vector
import Mathlib.Order.Lattice
import Mathlib.Data.Int.Cast.Basic

/-!
# What trimming keeps

Trimming shortens a window of coefficients and moves its start, but changes no coefficient: reading
a trimmed polynomial at any exponent gives what the untrimmed window holds there. What is left
starts and ends with a coefficient other than zero, unless all of them vanish.
-/

namespace PolynomialEquations

variable {K : Type} [Zero K]

/-- The entry at exponent `k` of a window of coefficients that starts at exponent `first`, zero
outside the window. -/
def windowCoeff (first : ℤ) (c : Array K) (k : ℤ) : K :=
  if first ≤ k then c.getD (k - first).toNat 0 else 0

section Scanning

/-- The significant part of a vector is no longer than the part that was looked at. -/
theorem significant_le [BEq K] (v : Array K) (n : ℕ) : significant v n ≤ n := by
  induction n with
  | zero => exact le_rfl
  | succ n ih =>
    rw [significant]
    split
    · omega
    · exact le_rfl

variable [BEq K] [LawfulBEq K]

/-- Behind the significant part there are only zeros. -/
theorem getD_of_significant_le {v : Array K} {n i : ℕ} (hi : significant v n ≤ i) (hn : i < n) :
    v.getD i 0 = 0 := by
  induction n with
  | zero => omega
  | succ n ih =>
    rw [significant] at hi
    split at hi
    · next hzero =>
      by_cases hin : i = n
      · rw [hin]
        exact eq_of_beq hzero
      · exact ih hi (by omega)
    · omega

/-- The significant part ends with an entry other than zero. -/
theorem getD_significant_ne {v : Array K} {n : ℕ} (h : significant v n ≠ 0) :
    v.getD (significant v n - 1) 0 ≠ 0 := by
  induction n with
  | zero => exact absurd rfl h
  | succ n ih =>
    rw [significant] at h ⊢
    split
    · next hzero =>
      rw [if_pos hzero] at h
      exact ih h
    · next hzero =>
      rw [Nat.add_sub_cancel]
      exact fun h => hzero (beq_iff_eq.mpr h)

/-- Entries counted as leading zeros are zero. -/
theorem getD_of_lt_leadingZeros {v : Array K} {i j n : ℕ} (hj : j < leadingZeros v i n) :
    v.getD (i + j) 0 = 0 := by
  induction n generalizing i j with
  | zero => exact absurd hj (Nat.not_lt_zero _)
  | succ n ih =>
    rw [leadingZeros] at hj
    split at hj
    · next hzero =>
      cases j with
      | zero => exact eq_of_beq hzero
      | succ j =>
        have hnext := ih (i := i + 1) (j := j) (by omega)
        rwa [Nat.add_right_comm, Nat.add_assoc] at hnext
    · exact absurd hj (Nat.not_lt_zero _)

/-- The entry behind the leading zeros is not zero, unless the count was exhausted. -/
theorem getD_leadingZeros_ne {v : Array K} {i n : ℕ} (h : leadingZeros v i n < n) :
    v.getD (i + leadingZeros v i n) 0 ≠ 0 := by
  induction n generalizing i with
  | zero => omega
  | succ n ih =>
    rw [leadingZeros] at h ⊢
    split
    · next hzero =>
      rw [if_pos hzero] at h
      have hnext := ih (i := i + 1) (by omega)
      rwa [Nat.add_right_comm, Nat.add_assoc] at hnext
    · next hzero => exact fun h => hzero (beq_iff_eq.mpr h)

/-- The leading zeros end before the significant part does. -/
theorem leadingZeros_lt_significant {v : Array K} (h : significant v v.size ≠ 0) :
    leadingZeros v 0 v.size < significant v v.size := by
  by_contra hle
  have hlast : v.getD (0 + (significant v v.size - 1)) 0 = 0 :=
    getD_of_lt_leadingZeros (n := v.size) (by omega)
  rw [Nat.zero_add] at hlast
  exact getD_significant_ne h hlast

end Scanning

namespace Poly

variable [BEq K] [LawfulBEq K]

omit [BEq K] [LawfulBEq K] in
/-- A coefficient is an entry of the stored window. -/
theorem coeff_eq_windowCoeff (a : Poly K) (k : ℤ) : a.coeff k = windowCoeff a.first a.coef k := rfl

omit [BEq K] [LawfulBEq K] in
/-- An ordinary polynomial has its stored coefficients at the exponents from zero on. -/
theorem coeff_natCast {a : Poly K} (ha : a.variant = .ordinary) (n : ℕ) :
    a.coeff n = a.coef.getD n 0 := by
  rw [coeff, first_eq_zero_of_ordinary ha, if_pos (by omega), Int.sub_zero, Int.toNat_natCast]

omit [LawfulBEq K] in
/-- Coefficients given from the constant term on make an ordinary polynomial. -/
@[simp] theorem variant_ofCoef (c : Array K) (s : String) : (ofCoef c s).variant = .ordinary := by
  simp only [ofCoef]
  split <;> rfl

omit [LawfulBEq K] in
@[simp] theorem symbol_ofCoef (c : Array K) (s : String) : (ofCoef c s).symbol = s := by
  simp only [ofCoef]
  split <;> rfl

/-- Trimming the end of a vector of coefficients leaves its entries as they are. -/
theorem getD_coef_ofCoef (c : Array K) (s : String) (i : ℕ) :
    (ofCoef c s).coef.getD i 0 = c.getD i 0 := by
  have htail : significant c c.size ≤ i → c.getD i 0 = 0 := fun hi => by
    by_cases hsize : i < c.size
    · exact getD_of_significant_le hi hsize
    · exact getD_of_size_le (by omega)
  unfold ofCoef
  by_cases hn : significant c c.size = 0
  · rw [if_pos hn, htail (by omega)]
    cases i with
    | zero => rfl
    | succ i => exact getD_of_size_le (by simp)
  · rw [if_neg hn, coef_ordinary, getD_extract, Nat.zero_add]
    by_cases hi : i < significant c c.size
    · rw [if_pos hi]
    · rw [if_neg hi, htail (by omega)]

/-- Trimming the end of a vector of coefficients changes no coefficient. -/
theorem coeff_ofCoef (c : Array K) (s : String) (k : ℤ) :
    (ofCoef c s).coeff k = windowCoeff 0 c k := by
  rw [coeff_eq_windowCoeff, windowCoeff, windowCoeff,
    first_eq_zero_of_ordinary (variant_ofCoef c s), getD_coef_ofCoef]

/-- Trimming both ends of a window changes no coefficient. -/
theorem coeff_ofWindow (first : ℤ) (c : Array K) (s : String) (k : ℤ) :
    (ofWindow first c s).coeff k = windowCoeff first c k := by
  have htail : ∀ i, significant c c.size ≤ i → c.getD i 0 = 0 := fun i hi => by
    by_cases hsize : i < c.size
    · exact getD_of_significant_le hi hsize
    · exact getD_of_size_le (by omega)
  unfold ofWindow
  by_cases hn : significant c c.size = 0
  · rw [if_pos hn, windowCoeff, htail _ (by omega)]
    rw [ite_self, coeff, first_laurent, coef_laurent]
    split
    · cases (k - 0).toNat with
      | zero => rfl
      | succ i => exact getD_of_size_le (by simp)
    · rfl
  · rw [if_neg hn]
    simp only [coeff, first_laurent, coef_laurent, windowCoeff, getD_extract]
    generalize hz : leadingZeros c 0 c.size = z
    by_cases hk : first + z ≤ k
    · have hindex : z + (k - (first + z)).toNat = (k - first).toNat := by omega
      rw [if_pos hk, if_pos (show first ≤ k by omega), hindex]
      by_cases hi : (k - first).toNat < significant c c.size
      · rw [if_pos hi]
      · rw [if_neg hi, htail _ (by omega)]
    · rw [if_neg hk]
      by_cases hfirst : first ≤ k
      · rw [if_pos hfirst]
        have hlead := getD_of_lt_leadingZeros (v := c) (i := 0) (j := (k - first).toNat)
          (n := c.size) (by omega)
        rw [Nat.zero_add] at hlead
        exact hlead.symm
      · rw [if_neg hfirst]

/-- A polynomial assembled from a window has the coefficients of the window. -/
theorem coeff_assemble {v : Variant} {first : ℤ} (hfirst : v = .ordinary → 0 ≤ first)
    (c : Array K) (s : String) (k : ℤ) :
    (assemble v first c s).coeff k = windowCoeff first c k := by
  cases v with
  | laurent => exact coeff_ofWindow first c s k
  | ordinary =>
    have hpos := hfirst rfl
    rw [assemble, coeff_ofCoef]
    simp only [windowCoeff, Array.getD_eq_getD_getElem?, Array.getElem?_append,
      Array.size_replicate, Array.getElem?_replicate]
    by_cases hk : first ≤ k
    · rw [if_pos (by omega), if_pos hk, if_neg (by omega)]
      congr 2
      omega
    · rw [if_neg hk]
      split
      · rw [if_pos (by omega), if_pos (by omega), Option.getD_some]
      · rfl

omit [LawfulBEq K] in
/-- A polynomial is of the kind it was assembled as. -/
@[simp] theorem variant_assemble (v : Variant) (first : ℤ) (c : Array K) (s : String) :
    (assemble v first c s).variant = v := by
  cases v with
  | ordinary => exact variant_ofCoef _ _
  | laurent =>
    simp only [assemble, ofWindow]
    split <;> rfl

omit [LawfulBEq K] in
@[simp] theorem symbol_assemble (v : Variant) (first : ℤ) (c : Array K) (s : String) :
    (assemble v first c s).symbol = s := by
  cases v with
  | ordinary => exact symbol_ofCoef _ _
  | laurent =>
    simp only [assemble, ofWindow]
    split <;> rfl

/-- Ordinary polynomials are trimmed when they are built. -/
theorem trimmed_ofCoef (c : Array K) (s : String) : (ofCoef c s).Trimmed := by
  unfold ofCoef
  by_cases hn : significant c c.size = 0
  · rw [if_pos hn]
    exact Or.inl rfl
  · rw [if_neg hn]
    have hsize : (c.extract 0 (significant c c.size)).size = significant c c.size := by
      simp [significant_le]
    refine Or.inr ⟨by omega, ?_⟩
    rw [hsize, getD_extract, Nat.zero_add, if_pos (by omega)]
    exact beq_eq_false_iff_ne.mpr (getD_significant_ne hn)

/-- Laurent polynomials are trimmed when they are built. -/
theorem trimmed_ofWindow (first : ℤ) (c : Array K) (s : String) :
    (ofWindow first c s).Trimmed := by
  unfold ofWindow
  by_cases hn : significant c c.size = 0
  · rw [if_pos hn]
    exact Or.inl ⟨rfl, rfl⟩
  · rw [if_neg hn]
    have hlt := leadingZeros_lt_significant hn
    have hle := significant_le c c.size
    have hfirst := getD_leadingZeros_ne (v := c) (i := 0) (n := c.size) (by omega)
    have hsize : (c.extract (leadingZeros c 0 c.size) (significant c c.size)).size =
        significant c c.size - leadingZeros c 0 c.size := by
      rw [Array.size_extract]
      omega
    refine Or.inr ⟨by omega, ?_, ?_⟩
    · rw [getD_extract, if_pos (by omega), Nat.add_zero, beq_eq_false_iff_ne]
      rwa [Nat.zero_add] at hfirst
    · have hlast : leadingZeros c 0 c.size +
          (significant c c.size - leadingZeros c 0 c.size - 1) = significant c c.size - 1 := by
        omega
      rw [hsize, getD_extract, hlast, if_pos (by omega), beq_eq_false_iff_ne]
      exact getD_significant_ne hn

/-- Every polynomial assembled from a window is trimmed. -/
theorem trimmed_assemble (v : Variant) (first : ℤ) (c : Array K) (s : String) :
    (assemble v first c s).Trimmed := by
  cases v with
  | ordinary => exact trimmed_ofCoef _ s
  | laurent => exact trimmed_ofWindow first c s

end Poly

end PolynomialEquations
