import PolynomialEquations.Poly.Transform
import PolynomialEquations.Proofs.Mixed.Basic

/-!
# Conjugation across the unit circle

Reading an ordinary polynomial as a Laurent polynomial keeps its coefficients. Conjugating across
the unit circle conjugates the coefficients and negates their exponents, for polynomials of either
kind; on the stored window of a Laurent polynomial this is a reversal.
-/

namespace PolynomialEquations

/-- Reversing a window negates its exponents. -/
theorem windowCoeff_reverse {K : Type} [Zero K] (first : ℤ) (c : Array K) (k : ℤ) :
    windowCoeff (-(first + c.size - 1)) c.reverse k = windowCoeff first c (-k) := by
  unfold windowCoeff
  rw [getD_reverse]
  by_cases hlow : first ≤ -k
  · rw [if_pos hlow]
    by_cases hhigh : -(first + c.size - 1) ≤ k
    · have hindex : c.size - 1 - (k - -(first + c.size - 1)).toNat = (-k - first).toNat := by omega
      rw [if_pos hhigh, if_pos (by omega), hindex]
    · rw [if_neg hhigh, getD_of_size_le (by omega)]
  · rw [if_neg hlow]
    split
    · rw [if_neg (by omega)]
    · rfl

namespace Poly

section Laurent

variable {K : Type} [Zero K] [BEq K]

@[simp] theorem variant_toLaurent (a : Poly K) : a.toLaurent.variant = .laurent := by
  cases a with
  | ordinary c s => exact variant_assemble .laurent 0 c s
  | laurent f c s => rfl

@[simp] theorem symbol_toLaurent (a : Poly K) : a.toLaurent.symbol = a.symbol := by
  cases a with
  | ordinary c s => exact symbol_assemble .laurent 0 c s
  | laurent f c s => rfl

variable [LawfulBEq K]

/-- A polynomial read as a Laurent polynomial has the same coefficients. -/
@[simp] theorem coeff_toLaurent (a : Poly K) (k : ℤ) : a.toLaurent.coeff k = a.coeff k := by
  cases a with
  | ordinary c s => exact coeff_ofWindow 0 c s k
  | laurent f c s => rfl

/-- A polynomial read as a Laurent polynomial is trimmed at both ends. -/
theorem Trimmed.toLaurent {a : Poly K} (ha : a.Trimmed) : a.toLaurent.Trimmed := by
  cases a with
  | ordinary c s => exact trimmed_ofWindow 0 c s
  | laurent f c s => exact ha

end Laurent

variable {K : Type} [RCLike K] {a : Poly K}

/-- Conjugating the coefficients of a trimmed polynomial leaves nothing to trim. -/
theorem Trimmed.conj_eq (ha : a.Trimmed) : a.conj = a.map (starRingEnd K) := by
  have hmap : (a.map (starRingEnd K)).Trimmed := ha.map fun _ => map_eq_zero _
  refine Trimmed.eq_of_coeff_eq (trimmed_assemble _ _ _ _) hmap ?_ ?_ fun k => ?_
  · rw [conj, variant_mapCoef, variant_map]
  · rw [conj, symbol_mapCoef, symbol_map]
  · rw [coeff_conj, coeff_map (map_zero (starRingEnd K))]

@[simp] theorem variant_circleConj (a : Poly K) : a.circleConj.variant = .laurent :=
  variant_assemble .laurent _ _ _

@[simp] theorem symbol_circleConj (a : Poly K) : a.circleConj.symbol = a.symbol :=
  (symbol_assemble .laurent _ _ _).trans (symbol_toLaurent a)

theorem trimmed_circleConj (a : Poly K) : a.circleConj.Trimmed := trimmed_ofWindow _ _ _

/-- The conjugate across the unit circle has the conjugated coefficients at the negated
exponents. -/
theorem Trimmed.coeff_circleConj (ha : a.Trimmed) (k : ℤ) :
    a.circleConj.coeff k = starRingEnd K (a.coeff (-k)) := by
  rw [circleConj, coeff_ofWindow, ha.toLaurent.conj_eq, coef_map, last,
    ← Array.size_map (f := starRingEnd K), windowCoeff_reverse]
  rw [← coeff_toLaurent a, ← coeff_map (map_zero (starRingEnd K)), coeff_eq_windowCoeff, first_map,
    coef_map]

/-- Conjugating twice across the unit circle keeps the coefficients. -/
theorem Trimmed.coeff_circleConj_circleConj (ha : a.Trimmed) (k : ℤ) :
    a.circleConj.circleConj.coeff k = a.coeff k := by
  rw [(trimmed_circleConj a).coeff_circleConj, ha.coeff_circleConj, neg_neg, RCLike.conj_conj]

end Poly

end PolynomialEquations
