import PolynomialEquations.Proofs.Poly.Norm
import Mathlib.Algebra.Polynomial.Reverse

/-!
# Reversing a factor keeps the 2-norm of a product

The squared 2-norm of a polynomial of degree at most `N` is the coefficient of its product with its
conjugate reversal at `N`. The reversal is multiplicative and its own inverse, so this coefficient
is the same when one factor of a product is replaced by its conjugate reversal.
-/

namespace PolynomialEquations

open Polynomial

variable {K : Type} [RCLike K]

/-- No coefficient is larger than the 2-norm. -/
theorem norm_coeff_le_coefficientNorm (p : K[X]) (i : ℕ) : ‖p.coeff i‖ ≤ coefficientNorm p := by
  by_cases hi : i ∈ p.support
  · refine Real.le_sqrt_of_sq_le ?_
    exact Finset.single_le_sum (f := fun i => ‖p.coeff i‖ ^ 2) (fun i _ => sq_nonneg _) hi
  · rw [notMem_support_iff.mp hi, norm_zero]
    exact coefficientNorm_nonneg p

/-- The squared 2-norm as a sum over all exponents up to a bound of the degree. -/
theorem coefficientNorm_sq_of_natDegree_le {p : K[X]} {N : ℕ} (hp : p.natDegree ≤ N) :
    coefficientNorm p ^ 2 = ∑ i ∈ Finset.range (N + 1), ‖p.coeff i‖ ^ 2 := by
  refine coefficientNorm_sq ((degree_lt_iff_coeff_zero p _).mpr fun i hi => ?_)
  exact coeff_eq_zero_of_natDegree_lt (by omega)

/-- A factor `X` moves the coefficients up. -/
theorem coefficientNorm_X_mul (p : K[X]) : coefficientNorm (X * p) = coefficientNorm p := by
  have hdegree : (X * p).natDegree ≤ p.natDegree + 1 :=
    (natDegree_mul_le_of_le natDegree_X_le le_rfl).trans_eq (Nat.add_comm _ _)
  refine (sq_eq_sq₀ (coefficientNorm_nonneg _) (coefficientNorm_nonneg _)).mp ?_
  rw [coefficientNorm_sq_of_natDegree_le hdegree, coefficientNorm_sq_of_natDegree_le le_rfl,
    Finset.sum_range_succ', coeff_X_mul_zero, norm_zero, zero_pow two_ne_zero, add_zero]
  simp only [coeff_X_mul]

/-- The conjugate coefficients in reverse order, when exponents run from `0` to `N`. -/
noncomputable def conjReflect (N : ℕ) (p : K[X]) : K[X] := (p.map (starRingEnd K)).reflect N

@[simp] theorem coeff_conjReflect (N : ℕ) (p : K[X]) (i : ℕ) :
    (conjReflect N p).coeff i = starRingEnd K (p.coeff (revAt N i)) := by
  rw [conjReflect, coeff_reflect, coeff_map]

@[simp] theorem conjReflect_conjReflect (N : ℕ) (p : K[X]) :
    conjReflect N (conjReflect N p) = p := by
  ext i
  rw [coeff_conjReflect, coeff_conjReflect, revAt_invol, RCLike.conj_conj]

theorem natDegree_conjReflect_le {N : ℕ} {p : K[X]} (hp : p.natDegree ≤ N) :
    (conjReflect N p).natDegree ≤ N := by
  rw [natDegree_le_iff_coeff_eq_zero] at hp ⊢
  intro i hi
  rw [coeff_conjReflect, revAt_eq_self_of_lt hi, hp i hi, map_zero]

theorem conjReflect_mul {M N : ℕ} {p q : K[X]} (hp : p.natDegree ≤ M) (hq : q.natDegree ≤ N) :
    conjReflect (M + N) (p * q) = conjReflect M p * conjReflect N q := by
  rw [conjReflect, Polynomial.map_mul,
    reflect_mul _ _ (natDegree_map_le.trans hp) (natDegree_map_le.trans hq)]
  rfl

/-- The squared 2-norm is a coefficient of the product with the conjugate reversal. -/
theorem coeff_mul_conjReflect {N : ℕ} {p : K[X]} (hp : p.natDegree ≤ N) :
    (p * conjReflect N p).coeff N = ((coefficientNorm p ^ 2 : ℝ) : K) := by
  rw [coeff_mul, Finset.Nat.sum_antidiagonal_eq_sum_range_succ_mk,
    coefficientNorm_sq_of_natDegree_le hp, RCLike.ofReal_sum]
  refine Finset.sum_congr rfl fun i hi => ?_
  have hi : i ≤ N := Nat.le_of_lt_succ (Finset.mem_range.mp hi)
  rw [coeff_conjReflect, revAt_le (Nat.sub_le N i), Nat.sub_sub_self hi, RCLike.mul_conj,
    RCLike.ofReal_pow]

/-- A factor and its conjugate reversal give products of the same 2-norm. -/
theorem coefficientNorm_mul_conjReflect (p : K[X]) {N : ℕ} {q : K[X]} (hq : q.natDegree ≤ N) :
    coefficientNorm (p * conjReflect N q) = coefficientNorm (p * q) := by
  have hp : p.natDegree ≤ p.natDegree := le_rfl
  have hq' := natDegree_conjReflect_le hq
  have hcoeff : (((coefficientNorm (p * conjReflect N q)) ^ 2 : ℝ) : K) =
      ((coefficientNorm (p * q) ^ 2 : ℝ) : K) := by
    calc ((coefficientNorm (p * conjReflect N q) ^ 2 : ℝ) : K)
        = (p * conjReflect N q * (conjReflect p.natDegree p * q)).coeff (p.natDegree + N) := by
          rw [← coeff_mul_conjReflect (natDegree_mul_le_of_le hp hq'), conjReflect_mul hp hq',
            conjReflect_conjReflect]
      _ = (p * q * (conjReflect p.natDegree p * conjReflect N q)).coeff (p.natDegree + N) := by
          congr 1
          ring
      _ = ((coefficientNorm (p * q) ^ 2 : ℝ) : K) := by
          rw [← conjReflect_mul hp hq, coeff_mul_conjReflect (natDegree_mul_le_of_le hp hq)]
  exact (sq_eq_sq₀ (coefficientNorm_nonneg _) (coefficientNorm_nonneg _)).mp
    (RCLike.ofReal_injective hcoeff)

/-- A product with a monic polynomial has a 2-norm at least as large as the first and the last
coefficient of the other factor. -/
theorem le_coefficientNorm_mul_monic (p : K[X]) {q : K[X]} (hq : q.Monic) :
    max ‖p.coeff 0‖ ‖p.leadingCoeff‖ ≤ coefficientNorm (p * q) := by
  refine max_le ?_ ?_
  · -- the reversal of the monic factor starts with one
    have hfirst : (p * conjReflect q.natDegree q).coeff 0 = p.coeff 0 := by
      rw [mul_coeff_zero, coeff_conjReflect, revAt_zero, hq.coeff_natDegree, map_one, mul_one]
    rw [← coefficientNorm_mul_conjReflect p (le_refl q.natDegree), ← hfirst]
    exact norm_coeff_le_coefficientNorm _ 0
  · rw [← leadingCoeff_mul_monic hq]
    exact norm_coeff_le_coefficientNorm _ _

end PolynomialEquations
