import PolynomialEquations.Proofs.Poly.CircleConjugation
import PolynomialEquations.Proofs.Poly.Conjugation

/-!
# Scaling, shifting and reversing coefficients

Scaling multiplies the coefficient at every exponent by a power of the factor, a shift moves every
coefficient, and the reciprocal of an ordinary polynomial reverses the exponents up to the last one
and conjugates the coefficients. Removing small coefficients acts on each of them alone.
-/

namespace PolynomialEquations

/-- Moving the start of a window moves its exponents. -/
theorem windowCoeff_add {K : Type} [Zero K] (first n : ℤ) (c : Array K) (k : ℤ) :
    windowCoeff (first + n) c k = windowCoeff first c (k - n) := by
  unfold windowCoeff
  by_cases hk : first + n ≤ k
  · have hindex : (k - (first + n)).toNat = (k - n - first).toNat := by omega
    rw [if_pos hk, if_pos (by omega), hindex]
  · rw [if_neg hk, if_neg (by omega)]

namespace Poly

section Windows

variable {K : Type} [Zero K] [BEq K] [LawfulBEq K]

theorem trimmed_mapWithExponent (f : ℤ → K → K) (a : Poly K) : (a.mapWithExponent f).Trimmed :=
  trimmed_assemble _ _ _ _

theorem trimmed_mapCoef (f : K → K) (a : Poly K) : (a.mapCoef f).Trimmed :=
  trimmed_assemble _ _ _ _

theorem trimmed_shift (n : ℤ) (a : Poly K) : (a.shift n).Trimmed := trimmed_ofWindow _ _ _

/-- A shift moves the coefficient at every exponent. -/
theorem coeff_shift (n : ℤ) (a : Poly K) (k : ℤ) : (a.shift n).coeff k = a.coeff (k - n) := by
  rw [shift, coeff_ofWindow, windowCoeff_add, ← coeff_eq_windowCoeff, coeff_toLaurent]

end Windows

variable {K : Type} [RCLike K]

/-- Scaling multiplies the coefficient at every exponent by that power of the factor. -/
theorem coeff_scale (t : K) (a : Poly K) (k : ℤ) : (a.scale t).coeff k = a.coeff k * t ^ k := by
  rw [scale, coeff_mapWithExponent (fun k => zero_mul (Scalar.power t k)), scalar_power]

/-- The reciprocal is returned for an ordinary polynomial only. -/
theorem reciprocal_eq_ok_iff {a r : Poly K} : a.reciprocal = .ok r ↔
    a.variant = .ordinary ∧ r = ofCoef a.conj.coef.reverse a.symbol := by
  cases a with
  | laurent f c s => simp [reciprocal, variant]
  | ordinary c s => simp [reciprocal, variant, eq_comm]

/-- The reciprocal conjugates the coefficients and counts the exponents down from the last one. -/
theorem Trimmed.coeff_reciprocal {a r : Poly K} (ha : a.Trimmed) (h : a.reciprocal = .ok r)
    (k : ℤ) : r.coeff k = starRingEnd K (a.coeff (a.last - k)) := by
  obtain ⟨hordinary, rfl⟩ := reciprocal_eq_ok_iff.mp h
  have hfirst := first_eq_zero_of_ordinary hordinary
  have hstart : (0 : ℤ) = -(0 + (a.coef.map (starRingEnd K)).size - 1) + a.last := by
    rw [last, hfirst, Array.size_map]
    omega
  rw [coeff_ofCoef, ha.conj_eq, coef_map, hstart, windowCoeff_add, windowCoeff_reverse, neg_sub,
    ← coeff_map (map_zero (starRingEnd K)), coeff_eq_windowCoeff, first_map, hfirst, coef_map]

end Poly

end PolynomialEquations
