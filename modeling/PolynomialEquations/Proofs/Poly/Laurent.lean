import PolynomialEquations.Proofs.Poly.CircleConjugation
import PolynomialEquations.Proofs.Poly.Meaning
import Mathlib.Algebra.Polynomial.AlgebraMap
import Mathlib.Algebra.Polynomial.Mirror
import Mathlib.Analysis.CStarAlgebra.Classes

/-!
# Laurent polynomials as shifted polynomials

A trimmed Laurent polynomial stands for a power of the variable times a polynomial with a constant
term, and is determined by both. A product multiplies the polynomials and adds the powers, and the
conjugate across the unit circle of a real polynomial reverses it. Where the variable is not zero
the power does not vanish, so the roots of a Laurent polynomial are those of the polynomial.
-/

namespace PolynomialEquations

open Polynomial

section Shift

variable {K : Type} [Semiring K]

/-- The coefficient at exponent `k` of `s ^ m` times the polynomial `P`. -/
def shiftedCoeff (m : ℤ) (P : K[X]) (k : ℤ) : K := if m ≤ k then P.coeff (k - m).toNat else 0

theorem shiftedCoeff_of_lt {m k : ℤ} (h : k < m) (P : K[X]) : shiftedCoeff m P k = 0 :=
  if_neg (by omega)

@[simp] theorem shiftedCoeff_add_natCast (m : ℤ) (P : K[X]) (n : ℕ) :
    shiftedCoeff m P (m + n) = P.coeff n := by
  rw [shiftedCoeff, if_pos (by omega), add_sub_cancel_left, Int.toNat_natCast]

@[simp] theorem shiftedCoeff_self (m : ℤ) (P : K[X]) : shiftedCoeff m P m = P.coeff 0 := by
  rw [shiftedCoeff, if_pos le_rfl, sub_self, Int.toNat_zero]

end Shift

theorem shiftedCoeff_neg {K : Type} [Ring K] (m : ℤ) (P : K[X]) (k : ℤ) :
    shiftedCoeff m (-P) k = -shiftedCoeff m P k := by
  unfold shiftedCoeff
  split
  · exact Polynomial.coeff_neg _ _
  · exact neg_zero.symm

section Mirror

variable {K : Type} [Semiring K] {P : K[X]}

/-- Reversing a polynomial with a constant term exchanges the exponents up to the degree. -/
theorem coeff_mirror_of_coeff_zero (hP : P.coeff 0 ≠ 0) (n : ℕ) :
    P.mirror.coeff n = P.coeff (revAt P.natDegree n) := by
  rw [coeff_mirror, natTrailingDegree_eq_zero.mpr (Or.inr hP), add_zero]

/-- The reversal of a polynomial with a constant term starts with the leading coefficient. -/
theorem mirror_coeff_zero_ne_zero (hP : P.coeff 0 ≠ 0) : P.mirror.coeff 0 ≠ 0 := by
  rw [coeff_mirror_of_coeff_zero hP, revAt_zero]
  apply leadingCoeff_ne_zero.mpr
  rintro rfl
  exact hP (coeff_zero 0)

end Mirror

namespace Poly

section Semiring

variable {K : Type} [Semiring K]

/-- A value has the coefficients of the polynomial of its stored coefficients, shifted to its first
exponent. -/
theorem coeff_eq_shiftedCoeff (a : Poly K) (k : ℤ) :
    a.coeff k = shiftedCoeff a.first a.toPolynomial k := by
  rw [coeff, shiftedCoeff, coeff_toPolynomial]

variable [BEq K] [LawfulBEq K] {a b : Poly K}

/-- In a product the shifts add up and the polynomials multiply. -/
theorem coeff_mul_eq_shiftedCoeff (a b : Poly K) (k : ℤ) :
    (a * b).coeff k = shiftedCoeff (a.first + b.first) (a.toPolynomial * b.toPolynomial) k := by
  change (assemble (a.variant.join b.variant) (a.first + b.first)
    (convolution a.coef b.coef) _).coeff k = _
  rw [coeff_assemble first_add_first_nonneg, windowCoeff, shiftedCoeff, toPolynomial, toPolynomial,
    ← vectorPolynomial_convolution, coeff_vectorPolynomial]

/-- A value as the constructor of Laurent polynomials builds it. -/
structure IsLaurent (a : Poly K) : Prop where
  /-- The exponents may start anywhere. -/
  variant_eq : a.variant = .laurent
  /-- There is no zero at either end of the coefficients, unless all are zero. -/
  trimmed : a.Trimmed

/-- The product of a Laurent polynomial with any value is a Laurent polynomial. -/
theorem IsLaurent.mul (ha : a.IsLaurent) (b : Poly K) : (a * b).IsLaurent where
  variant_eq := by
    rw [variant_mul, ha.variant_eq]
    rfl
  trimmed := trimmed_assemble _ _ _ _

namespace IsLaurent

/-- A Laurent polynomial other than zero stands for a polynomial with a constant term. -/
theorem coeff_zero_ne_zero (ha : a.IsLaurent) (hzero : a.isZero = false) :
    a.toPolynomial.coeff 0 ≠ 0 := by
  have hfirst := ha.trimmed.coeff_first_ne_zero ha.variant_eq hzero
  rwa [coeff_eq_shiftedCoeff, shiftedCoeff_self] at hfirst

/-- The shift and the polynomial with a constant term can be read off the coefficients. -/
theorem eq_of_shiftedCoeff (ha : a.IsLaurent) {m : ℤ} {P : K[X]} (hP : P.coeff 0 ≠ 0)
    (h : ∀ k, a.coeff k = shiftedCoeff m P k) : a.first = m ∧ a.toPolynomial = P := by
  have hstart : a.coeff m ≠ 0 := by rwa [h, shiftedCoeff_self]
  have hfirst : a.first = m := by
    have hcoeff := ha.trimmed.coeff_first_ne_zero ha.variant_eq (isZero_eq_false_of_coeff hstart)
    rw [h] at hcoeff
    refine le_antisymm (mem_window_of_coeff_ne_zero hstart).1 (le_of_not_gt fun hlt => ?_)
    exact hcoeff (shiftedCoeff_of_lt hlt P)
  refine ⟨hfirst, ?_⟩
  ext n
  rw [coeff_toPolynomial, ← coeff_first_add, h, hfirst, shiftedCoeff_add_natCast]

/-- The degree of the polynomial is the width of the window. -/
theorem natDegree_eq (ha : a.IsLaurent) : (a.toPolynomial.natDegree : ℤ) = a.last - a.first := by
  rw [last, ha.trimmed.size_coef]
  push_cast
  ring

end IsLaurent

end Semiring

section Reversal

variable {a : Poly ℝ}

theorem isLaurent_circleConj (a : Poly ℝ) : a.circleConj.IsLaurent :=
  ⟨variant_circleConj a, trimmed_circleConj a⟩

/-- Conjugating an ordinary real polynomial across the unit circle reverses it. -/
theorem IsOrdinary.coeff_circleConj (ha : a.IsOrdinary) (hzero : a.toPolynomial.coeff 0 ≠ 0)
    (k : ℤ) : a.circleConj.coeff k =
      shiftedCoeff (-a.toPolynomial.natDegree) a.toPolynomial.mirror k := by
  rw [ha.trimmed.coeff_circleConj, conj_trivial, coeff_eq_shiftedCoeff,
    first_eq_zero_of_ordinary ha.variant_eq, shiftedCoeff, shiftedCoeff,
    coeff_mirror_of_coeff_zero hzero]
  by_cases hlow : -(a.toPolynomial.natDegree : ℤ) ≤ k
  · rw [if_pos hlow]
    by_cases hhigh : 0 ≤ -k
    · rw [if_pos hhigh, revAt_le (by omega)]
      congr 1
      omega
    · rw [if_neg hhigh, revAt_eq_self_of_lt (by omega), coeff_eq_zero_of_natDegree_lt (by omega)]
  · rw [if_neg hlow, if_pos (by omega), coeff_eq_zero_of_natDegree_lt (by omega)]

/-- The product of an ordinary real polynomial with a constant term and its conjugate across the
unit circle is its product with its reversal, shifted by the degree. -/
theorem IsOrdinary.coeff_circleConj_mul (ha : a.IsOrdinary) (hzero : a.toPolynomial.coeff 0 ≠ 0)
    (k : ℤ) : (a.circleConj * a).coeff k =
      shiftedCoeff (-a.toPolynomial.natDegree) (a.toPolynomial.mirror * a.toPolynomial) k := by
  obtain ⟨hfirst, hpolynomial⟩ := (isLaurent_circleConj a).eq_of_shiftedCoeff
    (mirror_coeff_zero_ne_zero hzero) (ha.coeff_circleConj hzero)
  rw [coeff_mul_eq_shiftedCoeff, hfirst, hpolynomial, first_eq_zero_of_ordinary ha.variant_eq,
    add_zero]

/-- The product with the conjugate across the unit circle starts at minus the degree and stores the
product with the reversal. -/
theorem IsOrdinary.circleConj_mul (ha : a.IsOrdinary) (hzero : a.toPolynomial.coeff 0 ≠ 0) :
    (a.circleConj * a).first = -a.toPolynomial.natDegree ∧
      (a.circleConj * a).toPolynomial = a.toPolynomial.mirror * a.toPolynomial := by
  refine ((isLaurent_circleConj a).mul a).eq_of_shiftedCoeff ?_ (ha.coeff_circleConj_mul hzero)
  rw [mul_coeff_zero]
  exact mul_ne_zero (mirror_coeff_zero_ne_zero hzero) hzero

end Reversal

section Value

/-- The value at a complex number. -/
noncomputable def complexValue (a : Poly ℝ) (r : ℂ) : ℂ :=
  ∑ k ∈ Finset.Icc a.first a.last, (a.coeff k : ℂ) * r ^ k

/-- The value is that of the polynomial times the power at the first exponent. -/
theorem complexValue_eq (a : Poly ℝ) {r : ℂ} (hr : r ≠ 0) :
    a.complexValue r = r ^ a.first * aeval r a.toPolynomial := by
  rw [toPolynomial, vectorPolynomial, map_sum, Finset.mul_sum, complexValue]
  refine Finset.sum_nbij' (fun k => (k - a.first).toNat) (fun i => a.first + i) ?_ ?_ ?_ ?_ ?_
  · intro k hk
    rw [Finset.mem_Icc, last] at hk
    rw [Finset.mem_range]
    omega
  · intro i hi
    rw [Finset.mem_range] at hi
    rw [Finset.mem_Icc, last]
    omega
  · intro k hk
    rw [Finset.mem_Icc] at hk
    omega
  · intro i _
    rw [add_sub_cancel_left, Int.toNat_natCast]
  · intro k hk
    rw [Finset.mem_Icc] at hk
    have hpower : r ^ a.first * r ^ (k - a.first).toNat = r ^ k := by
      rw [← zpow_natCast, ← zpow_add₀ hr]
      congr 1
      omega
    rw [aeval_monomial, coeff, if_pos hk.1, mul_left_comm, hpower]
    rfl

/-- A number other than zero is a root of a value exactly when it is one of the polynomial of its
stored coefficients. -/
theorem complexValue_eq_zero_iff (a : Poly ℝ) {r : ℂ} (hr : r ≠ 0) :
    a.complexValue r = 0 ↔ aeval r a.toPolynomial = 0 := by
  rw [complexValue_eq a hr, mul_eq_zero, or_iff_right (zpow_ne_zero _ hr)]

end Value

end Poly

end PolynomialEquations
