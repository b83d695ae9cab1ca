import PolynomialEquations.Analysis.Symmetry
import PolynomialEquations.Proofs.Poly.Approximation
import PolynomialEquations.Proofs.Poly.Conjugation
import PolynomialEquations.Proofs.Poly.Equality
import PolynomialEquations.Proofs.Poly.Laurent

/-!
# Exact symmetry

Without a tolerance a value counts as symmetric exactly when it has the coefficients of its
conjugate, which is of the same kind, and this is the same as being symmetric up to every positive
tolerance. Two ordinary values count as equal exactly when they stand for the same polynomial. So an
ordinary value counts as symmetric exactly when its polynomial is its own conjugate. A Laurent
polynomial counts as symmetric exactly when opposite exponents have conjugate coefficients. For real
coefficients this makes the window symmetric and the stored coefficients their own reversal.
-/

namespace PolynomialEquations

open Polynomial

section Conjugate

namespace Poly

variable {K : Type} [RCLike K] {a : Poly K}

theorem symmetryConj_of_ordinary (h : a.variant = .ordinary) : a.symmetryConj = a.axisConj := by
  rw [symmetryConj, h]

theorem symmetryConj_of_laurent (h : a.variant = .laurent) : a.symmetryConj = a.circleConj := by
  rw [symmetryConj, h]

/-- The conjugate that belongs to a kind is of that kind. -/
theorem variant_symmetryConj (a : Poly K) : a.symmetryConj.variant = a.variant := by
  cases h : a.variant with
  | ordinary => rw [symmetryConj_of_ordinary h, variant_axisConj, h]
  | laurent => rw [symmetryConj_of_laurent h, variant_circleConj]

theorem trimmed_symmetryConj (a : Poly K) : a.symmetryConj.Trimmed := by
  cases h : a.variant with
  | ordinary =>
    rw [symmetryConj_of_ordinary h]
    exact (isOrdinary_axisConj h).trimmed
  | laurent =>
    rw [symmetryConj_of_laurent h]
    exact trimmed_circleConj a

/-- A value is symmetric exactly when it has the coefficients of its conjugate. -/
theorem Trimmed.isConjSymmetric_iff (ha : a.Trimmed) :
    isConjSymmetric a (0 : ℝ) = true ↔ ∀ k, a.coeff k = a.symmetryConj.coeff k := by
  rw [isConjSymmetric, if_neg (lt_irrefl _)]
  exact ha.equal_iff_of_variant_eq (trimmed_symmetryConj a) (variant_symmetryConj a).symm

/-- A value is symmetric exactly when it is symmetric up to every positive tolerance. -/
theorem Trimmed.isConjSymmetric_iff_tolerant (ha : a.Trimmed) :
    isConjSymmetric a (0 : ℝ) = true ↔ ∀ tol : ℝ, 0 < tol → isConjSymmetric a tol = true := by
  rw [ha.isConjSymmetric_iff, coeff_eq_iff_isApprox]
  refine forall₂_congr fun tol htol => ?_
  rw [isConjSymmetric, if_pos htol]

end Poly

end Conjugate

section Ordinary

/-- Ordinary values count as equal exactly when they stand for the same polynomial. -/
theorem Poly.IsOrdinary.equal_iff {K : Type} [Semiring K] [BEq K] [LawfulBEq K] {a b : Poly K}
    (ha : a.IsOrdinary) (hb : b.IsOrdinary) :
    a.equal b = true ↔ a.toPolynomial = b.toPolynomial := by
  have hvariant : a.variant = b.variant := ha.variant_eq.trans hb.variant_eq.symm
  rw [ha.trimmed.equal_iff_of_variant_eq hb.trimmed hvariant]
  constructor
  · intro h
    ext n
    rw [coeff_toPolynomial, coeff_toPolynomial, ← coeff_natCast ha.variant_eq, h,
      coeff_natCast hb.variant_eq]
  · intro h k
    rw [coeff_eq_shiftedCoeff, coeff_eq_shiftedCoeff, h, first_eq_zero_of_ordinary ha.variant_eq,
      first_eq_zero_of_ordinary hb.variant_eq]

/-- An ordinary value is symmetric exactly when its polynomial is its own conjugate. -/
theorem isConjSymmetric_iff {K : Type} [RCLike K] {a : Poly K} (ha : a.IsOrdinary) :
    isConjSymmetric a (0 : ℝ) = true ↔ axisConjugate a.toPolynomial = a.toPolynomial := by
  rw [isConjSymmetric, if_neg (lt_irrefl _), Poly.symmetryConj_of_ordinary ha.variant_eq,
    ha.equal_iff (Poly.isOrdinary_axisConj ha.variant_eq),
    Poly.toPolynomial_axisConj ha.variant_eq, eq_comm]

end Ordinary

section Laurent

/-- A Laurent polynomial is symmetric exactly when opposite exponents have conjugate
coefficients. -/
theorem isConjSymmetric_iff_of_laurent {K : Type} [RCLike K] {a : Poly K} (ha : a.IsLaurent) :
    isConjSymmetric a (0 : ℝ) = true ↔ ∀ k, starRingEnd K (a.coeff (-k)) = a.coeff k := by
  rw [ha.trimmed.isConjSymmetric_iff, Poly.symmetryConj_of_laurent ha.variant_eq]
  exact forall_congr' fun k => by rw [ha.trimmed.coeff_circleConj, eq_comm]

variable {a : Poly ℝ}

/-- With equal coefficients at opposite exponents the window is symmetric. -/
theorem Poly.IsLaurent.first_eq_neg_last (ha : a.IsLaurent) (hzero : a.isZero = false)
    (h : ∀ k, a.coeff (-k) = a.coeff k) : a.first = -a.last := by
  have hlast := mem_window_of_coeff_ne_zero ((h _).trans_ne (ha.trimmed.coeff_last_ne_zero hzero))
  have hfirst := mem_window_of_coeff_ne_zero
    ((h _).trans_ne (ha.trimmed.coeff_first_ne_zero ha.variant_eq hzero))
  omega

/-- A real Laurent polynomial other than zero is symmetric exactly when its window is symmetric and
its stored coefficients are their own reversal. -/
theorem isConjSymmetric_iff_mirror (ha : a.IsLaurent) (hzero : a.isZero = false) :
    isConjSymmetric a (0 : ℝ) = true ↔
      a.first = -a.last ∧ a.toPolynomial.mirror = a.toPolynomial := by
  have hdegree := ha.natDegree_eq
  have hmirror : ∀ n ≤ a.toPolynomial.natDegree,
      a.toPolynomial.mirror.coeff n = a.coeff (a.last - n) := by
    intro n hn
    rw [coeff_mirror_of_coeff_zero (ha.coeff_zero_ne_zero hzero), revAt_le hn,
      Poly.coeff_toPolynomial, ← Poly.coeff_first_add]
    congr 1
    omega
  simp only [isConjSymmetric_iff_of_laurent ha, conj_trivial]
  constructor
  · intro h
    have hwindow := ha.first_eq_neg_last hzero h
    refine ⟨hwindow, ?_⟩
    ext n
    by_cases hn : n ≤ a.toPolynomial.natDegree
    · have hindex : -(a.last - n) = a.first + n := by omega
      rw [hmirror n hn, ← h, hindex, Poly.coeff_first_add, Poly.coeff_toPolynomial]
    · rw [coeff_eq_zero_of_natDegree_lt (by rw [mirror_natDegree]; omega),
        coeff_eq_zero_of_natDegree_lt (by omega)]
  · rintro ⟨hwindow, h⟩ k
    by_cases hk : a.first ≤ k ∧ k ≤ a.last
    · have hn := hmirror (k - a.first).toNat (by omega)
      have hindex : a.last - ((k - a.first).toNat : ℤ) = -k := by omega
      have hindex' : a.first + ((k - a.first).toNat : ℤ) = k := by omega
      rw [h, Poly.coeff_toPolynomial, ← Poly.coeff_first_add, hindex, hindex'] at hn
      exact hn.symm
    · have hout : k < a.first ∨ a.last < k := by omega
      rcases hout with hlow | hhigh
      · rw [Poly.coeff_of_lt_first hlow, Poly.coeff_of_last_lt (by omega)]
      · rw [Poly.coeff_of_last_lt hhigh, Poly.coeff_of_lt_first (by omega)]

end Laurent

end PolynomialEquations
