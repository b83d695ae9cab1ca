import PolynomialEquations.Poly.Transform
import PolynomialEquations.Proofs.Poly.Meaning

/-!
# Conjugation across the imaginary axis

Replacing the variable of a polynomial by its negative and conjugating the coefficients is a ring
homomorphism that is its own inverse. On stored polynomials it is computed coefficient by
coefficient, at every exponent of the window.
-/

namespace PolynomialEquations

open Polynomial

section Coefficients

namespace Poly

variable {K : Type} [Zero K] [BEq K] [LawfulBEq K]

/-- A change that depends on the exponent and keeps zero acts on the coefficient at every
exponent. -/
theorem coeff_mapWithExponent {f : ℤ → K → K} (hf : ∀ k, f k 0 = 0) (a : Poly K) (k : ℤ) :
    (a.mapWithExponent f).coeff k = f k (a.coeff k) := by
  rw [mapWithExponent, coeff_assemble first_nonneg_of_ordinary, coeff_eq_windowCoeff, windowCoeff,
    windowCoeff]
  by_cases hk : a.first ≤ k
  · have hindex : a.first + ((k - a.first).toNat : ℤ) = k := by omega
    rw [if_pos hk, if_pos hk]
    simp only [Array.getD_eq_getD_getElem?, Array.getElem?_mapIdx, hindex]
    cases a.coef[(k - a.first).toNat]? with
    | none => exact (hf k).symm
    | some x => rfl
  · rw [if_neg hk, if_neg hk, hf]

end Poly

end Coefficients

section Conjugate

variable {K : Type} [RCLike K]

/-- Replacing the variable by its negative negates the coefficients at odd exponents. -/
theorem coeff_comp_neg_X (p : K[X]) (n : ℕ) : (p.comp (-X)).coeff n = p.coeff n * (-1) ^ n := by
  have hneg : (-X : K[X]) = C (-1) * X := by rw [C_neg, C_1, neg_one_mul]
  rw [hneg, comp_C_mul_X_coeff]

/-- The conjugate of a polynomial across the imaginary axis: the variable is replaced by its
negative and the coefficients are conjugated. -/
noncomputable def axisConjugate : K[X] →+* K[X] :=
  (compRingHom (-X)).comp (mapRingHom (starRingEnd K))

theorem axisConjugate_apply (p : K[X]) :
    axisConjugate p = (p.map (starRingEnd K)).comp (-X) := rfl

/-- The coefficient at `s ^ n` is conjugated, and negated when `n` is odd. -/
theorem coeff_axisConjugate (p : K[X]) (n : ℕ) :
    (axisConjugate p).coeff n = starRingEnd K (p.coeff n) * (-1) ^ n := by
  rw [axisConjugate_apply, coeff_comp_neg_X, coeff_map]

/-- The coefficients keep their moduli. -/
theorem norm_coeff_axisConjugate (p : K[X]) (n : ℕ) :
    ‖(axisConjugate p).coeff n‖ = ‖p.coeff n‖ := by
  rw [coeff_axisConjugate, norm_mul, RCLike.norm_conj, norm_pow, norm_neg, norm_one, one_pow,
    mul_one]

/-- Conjugating twice gives the polynomial back. -/
@[simp] theorem axisConjugate_axisConjugate (p : K[X]) : axisConjugate (axisConjugate p) = p := by
  ext n
  rw [coeff_axisConjugate, coeff_axisConjugate, map_mul, map_pow, map_neg, map_one,
    RCLike.conj_conj, mul_assoc, ← mul_pow, neg_mul_neg, one_mul, one_pow, mul_one]

@[simp] theorem degree_axisConjugate (p : K[X]) : (axisConjugate p).degree = p.degree := by
  rw [axisConjugate_apply, degree_comp_neg_X,
    degree_map_eq_of_injective (starRingEnd K).injective]

@[simp] theorem natDegree_axisConjugate (p : K[X]) :
    (axisConjugate p).natDegree = p.natDegree :=
  natDegree_eq_of_degree_eq (degree_axisConjugate p)

/-- The leading coefficient is conjugated, and negated when the degree is odd. -/
theorem leadingCoeff_axisConjugate (p : K[X]) :
    (axisConjugate p).leadingCoeff = starRingEnd K p.leadingCoeff * (-1) ^ p.natDegree := by
  rw [leadingCoeff, natDegree_axisConjugate, coeff_axisConjugate]
  rfl

@[simp] theorem axisConjugate_eq_zero_iff {p : K[X]} : axisConjugate p = 0 ↔ p = 0 := by
  rw [← degree_eq_bot, degree_axisConjugate, degree_eq_bot]

/-- A real polynomial is only changed in its variable. -/
theorem axisConjugate_real (p : ℝ[X]) : axisConjugate p = p.comp (-X) := by
  have hmap : p.map (starRingEnd ℝ) = p := by
    ext n
    rw [coeff_map, conj_trivial]
  rw [axisConjugate_apply, hmap]

end Conjugate

namespace Poly

variable {K : Type} [RCLike K]

/-- The conjugate of a stored polynomial has a conjugated coefficient at every exponent, negated at
the odd ones. -/
theorem coeff_axisConj (a : Poly K) (k : ℤ) :
    a.axisConj.coeff k = if k % 2 = 1 then -starRingEnd K (a.coeff k)
      else starRingEnd K (a.coeff k) := by
  rw [axisConj, coeff_mapWithExponent (fun k => by split <;> simp), coeff_conj]

/-- The conjugate keeps the kind. -/
@[simp] theorem variant_axisConj (a : Poly K) : a.axisConj.variant = a.variant := by
  rw [axisConj, mapWithExponent, variant_assemble, conj, mapCoef, variant_assemble]

/-- The conjugate keeps the symbol. -/
@[simp] theorem symbol_axisConj (a : Poly K) : a.axisConj.symbol = a.symbol := by
  rw [axisConj, mapWithExponent, symbol_assemble, conj, mapCoef, symbol_assemble]

/-- The conjugate of an ordinary value is ordinary. -/
theorem isOrdinary_axisConj {a : Poly K} (ha : a.variant = .ordinary) : a.axisConj.IsOrdinary :=
  ⟨(variant_axisConj a).trans ha, trimmed_assemble _ _ _ _⟩

/-- The conjugate of an ordinary value stands for the conjugate. -/
theorem toPolynomial_axisConj {a : Poly K} (ha : a.variant = .ordinary) :
    a.axisConj.toPolynomial = axisConjugate a.toPolynomial := by
  ext n
  rw [coeff_toPolynomial, ← coeff_natCast (isOrdinary_axisConj ha).variant_eq, coeff_axisConj,
    coeff_natCast ha, coeff_axisConjugate, coeff_toPolynomial]
  by_cases hn : (n : ℤ) % 2 = 1
  · have hodd : Odd n := by
      rw [Nat.odd_iff]
      omega
    rw [if_pos hn, hodd.neg_one_pow, mul_neg_one]
  · have heven : Even n := by
      rw [Nat.even_iff]
      omega
    rw [if_neg hn, heven.neg_one_pow, mul_one]

/-- A value that stands for the conjugate, with the same symbol, is the conjugate. -/
theorem IsOrdinary.axisConj_eq {a b : Poly K} (ha : a.IsOrdinary) (hb : b.IsOrdinary)
    (hsymbol : a.symbol = b.symbol) (h : axisConjugate a.toPolynomial = b.toPolynomial) :
    a.axisConj = b :=
  (isOrdinary_axisConj ha.variant_eq).eq_of_toPolynomial_eq hb
    ((symbol_axisConj a).trans hsymbol) ((toPolynomial_axisConj ha.variant_eq).trans h)

/-- The sum of an ordinary value and its conjugate is ordinary. -/
theorem isOrdinary_add_axisConj {a : Poly K} (ha : a.variant = .ordinary) :
    (a + a.axisConj).IsOrdinary :=
  isOrdinary_add ha (isOrdinary_axisConj ha).variant_eq

/-- The sum of an ordinary value and its conjugate stands for the sum. -/
theorem toPolynomial_add_axisConj {a : Poly K} (ha : a.variant = .ordinary) :
    (a + a.axisConj).toPolynomial = a.toPolynomial + axisConjugate a.toPolynomial := by
  rw [toPolynomial_add ha (isOrdinary_axisConj ha).variant_eq, toPolynomial_axisConj ha]

/-- The product of an ordinary value and its conjugate stands for the product. -/
theorem toPolynomial_axisConj_mul {a : Poly K} (ha : a.variant = .ordinary) :
    (a.axisConj * a).toPolynomial = axisConjugate a.toPolynomial * a.toPolynomial := by
  rw [toPolynomial_mul (isOrdinary_axisConj ha).variant_eq ha, toPolynomial_axisConj ha]

/-- The product of an ordinary value and its conjugate is ordinary. -/
theorem isOrdinary_axisConj_mul {a : Poly K} (ha : a.variant = .ordinary) :
    (a.axisConj * a).IsOrdinary :=
  isOrdinary_mul (isOrdinary_axisConj ha).variant_eq ha

/-- The conjugate of an ordinary value has the same degree. -/
theorem IsOrdinary.degree_axisConj {a : Poly K} (ha : a.IsOrdinary) :
    a.axisConj.degree = a.degree := by
  refine (isOrdinary_axisConj ha.variant_eq).degree_congr ha ?_
  rw [toPolynomial_axisConj ha.variant_eq, degree_axisConjugate]

/-- The conjugate of an ordinary value is zero exactly when the value is. -/
theorem isZero_axisConj {a : Poly K} (ha : a.variant = .ordinary) :
    a.axisConj.isZero = a.isZero := by
  rw [Bool.eq_iff_iff, isZero_iff, isZero_iff, toPolynomial_axisConj ha, axisConjugate_eq_zero_iff]

/-- The conjugate of an ordinary value stores as many coefficients. -/
theorem IsOrdinary.size_coef_axisConj {a : Poly K} (ha : a.IsOrdinary) :
    a.axisConj.coef.size = a.coef.size := by
  rw [(isOrdinary_axisConj ha.variant_eq).size_coef, toPolynomial_axisConj ha.variant_eq,
    natDegree_axisConjugate, ha.size_coef]

end Poly

end PolynomialEquations
