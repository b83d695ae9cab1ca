import PolynomialEquations.Poly.Evaluation
import PolynomialEquations.Proofs.Poly.Laurent
import Mathlib.Algebra.Polynomial.Eval.Degree

/-!
# Nested multiplication sums the powers

A stored polynomial is evaluated by nested multiplication, followed by a power of the variable when
its window does not start at exponent zero. The result is the sum of the coefficients times the
powers of the variable, over all integer exponents. How such a sum changes with its coefficients is
independent of how they are stored.
-/

namespace PolynomialEquations

open Polynomial

section PowerSums

variable {K : Type} [Field K]

/-- The sum of `f k * x ^ k` over all integer exponents `k`. -/
noncomputable def powerSum (f : ℤ → K) (x : K) : K := ∑ᶠ k : ℤ, f k * x ^ k

/-- Powers with exponents that are not negative add their exponents at zero as well. -/
theorem zpow_add_of_nonneg {x : K} {m n : ℤ} (h : x ≠ 0 ∨ 0 ≤ m ∧ 0 ≤ n) :
    x ^ (m + n) = x ^ m * x ^ n := by
  apply zpow_add'
  rcases h with hx | ⟨hm, hn⟩
  · exact Or.inl hx
  · by_cases hsum : m + n = 0
    · exact Or.inr (Or.inr ⟨by omega, by omega⟩)
    · exact Or.inr (Or.inl hsum)

/-- The powers of a shifted polynomial sum to its value times the power it is shifted by. -/
theorem powerSum_shiftedCoeff {x : K} {m : ℤ} (h : x ≠ 0 ∨ 0 ≤ m) (P : K[X]) :
    powerSum (shiftedCoeff m P) x = x ^ m * P.eval x := by
  have hwindow : ∀ k, shiftedCoeff m P k * x ^ k ≠ 0 → m ≤ k ∧ k < m + (P.natDegree + 1 : ℕ) := by
    intro k hk
    have hcoeff : shiftedCoeff m P k ≠ 0 := left_ne_zero_of_mul hk
    have hlow : m ≤ k := by
      by_contra hlt
      exact hcoeff (shiftedCoeff_of_lt (by omega) P)
    rw [shiftedCoeff, if_pos hlow] at hcoeff
    have hhigh := le_natDegree_of_ne_zero hcoeff
    omega
  rw [powerSum, finsum_eq_sum_window hwindow, eval_eq_sum_range, Finset.mul_sum]
  refine Finset.sum_congr rfl fun i _ => ?_
  rw [shiftedCoeff_add_natCast, zpow_add_of_nonneg (h.imp_right fun hm => ⟨hm, by omega⟩),
    zpow_natCast, mul_left_comm]

/-- Sums of coefficients give sums of values. -/
theorem powerSum_add {f g : ℤ → K} (hf : f.support.Finite) (hg : g.support.Finite) (x : K) :
    powerSum (fun k => f k + g k) x = powerSum f x + powerSum g x := by
  simp only [powerSum, add_mul]
  apply finsum_add_distrib
  · exact hf.subset fun k hk => left_ne_zero_of_mul hk
  · exact hg.subset fun k hk => left_ne_zero_of_mul hk

/-- Multiplying every coefficient by a power of `t` replaces the variable by its `t`-fold. -/
theorem powerSum_mul_zpow (f : ℤ → K) (t x : K) :
    powerSum (fun k => f k * t ^ k) x = powerSum f (t * x) := by
  simp only [powerSum, mul_zpow, mul_assoc]

/-- Negating the exponents inverts the variable. -/
theorem powerSum_comp_neg (f : ℤ → K) (x : K) :
    powerSum (fun k => f (-k)) x = powerSum f x⁻¹ := by
  rw [powerSum, powerSum, ← finsum_comp_equiv (Equiv.neg ℤ)]
  refine finsum_congr fun k => ?_
  rw [Equiv.neg_apply, inv_zpow', neg_neg]

/-- Moving the exponents multiplies by a power of the variable. -/
theorem powerSum_shift {f : ℤ → K} {x : K} {n : ℤ}
    (h : x ≠ 0 ∨ 0 ≤ n ∧ ∀ k < 0, f k = 0) :
    powerSum (fun k => f (k - n)) x = x ^ n * powerSum f x := by
  rw [powerSum, powerSum, ← finsum_comp_equiv (Equiv.addRight n), ← smul_eq_mul, smul_finsum]
  refine finsum_congr fun k => ?_
  rw [Equiv.coe_addRight, add_sub_cancel_right, smul_eq_mul]
  by_cases hk : f k = 0
  · rw [hk, zero_mul, zero_mul, mul_zero]
  · have hdefined : x ≠ 0 ∨ 0 ≤ k ∧ 0 ≤ n := by
      refine h.imp_right fun ⟨hn, hzero⟩ => ⟨?_, hn⟩
      by_contra hneg
      exact hk (hzero k (by omega))
    rw [zpow_add_of_nonneg hdefined, mul_comm (x ^ n), mul_assoc]

end PowerSums

/-- Conjugating the coefficients conjugates the variable and the value. -/
theorem powerSum_conj {K : Type} [RCLike K] (f : ℤ → K) (x : K) :
    powerSum (fun k => starRingEnd K (f k)) x = starRingEnd K (powerSum f (starRingEnd K x)) := by
  rw [powerSum, powerSum, conj_finsum]
  exact finsum_congr fun k => by rw [map_mul, map_zpow₀, RCLike.conj_conj]

namespace Poly

section Nested

variable {K : Type} [Field K]

/-- A further coefficient in front is a new constant term. -/
theorem vectorPolynomial_cons (t : K) (l : List K) :
    vectorPolynomial (t :: l).toArray = C t + X * vectorPolynomial l.toArray := by
  ext n
  rw [coeff_vectorPolynomial, Polynomial.coeff_add, coeff_C]
  cases n with
  | zero => simp
  | succ n => simp [coeff_X_mul]

/-- Nested multiplication of a list of coefficients gives the value of the polynomial. -/
theorem foldr_eq_eval (l : List K) (x : K) :
    l.foldr (fun t v => t + v * x) 0 = (vectorPolynomial l.toArray).eval x := by
  induction l with
  | nil => simp [vectorPolynomial]
  | cons t l ih =>
    rw [List.foldr_cons, ih, vectorPolynomial_cons, eval_add, eval_mul, eval_C, eval_X, mul_comm]

/-- The nested form has the value of the polynomial of the stored coefficients. -/
theorem nested_eq_eval (c : Array K) (x : K) : nested c x = (vectorPolynomial c).eval x := by
  rcases c with ⟨l⟩
  rw [← foldr_eq_eval]
  induction l using List.reverseRecOn with
  | nil => simp [nested]
  | append_singleton l t _ => simp [nested]

/-- A change of the scalars of a vector changes those of its polynomial. -/
theorem vectorPolynomial_map {L : Type} [Field L] (f : K →+* L) (c : Array K) :
    vectorPolynomial (c.map f) = (vectorPolynomial c).map f := by
  ext n
  rw [coeff_vectorPolynomial, Polynomial.coeff_map, coeff_vectorPolynomial, getD_map (map_zero f)]

/-- A value read over other scalars stands for the polynomial over these. -/
theorem toPolynomial_map {L : Type} [Field L] (f : K →+* L) (a : Poly K) :
    (a.map f).toPolynomial = a.toPolynomial.map f := by
  rw [toPolynomial, coef_map, vectorPolynomial_map, toPolynomial]

/-- Nested multiplication commutes with a change of the scalars. -/
theorem nested_map {L : Type} [Field L] (f : K →+* L) (c : Array K) (x : K) :
    nested (c.map f) (f x) = f (nested c x) := by
  rw [nested_eq_eval, nested_eq_eval, vectorPolynomial_map, eval_map_apply]

end Nested

variable {K : Type} [RCLike K]

/-- The value of an ordinary polynomial is that of the polynomial it stands for. -/
theorem eval_eq_of_ordinary {a : Poly K} (ha : a.variant = .ordinary) (x : K) :
    a.eval x = a.toPolynomial.eval x := by
  rw [eval, if_pos (first_eq_zero_of_ordinary ha), nested_eq_eval, toPolynomial]

/-- The value of a stored polynomial sums its coefficients times the powers of the variable, which
must not be zero when the window starts at a negative exponent. -/
theorem eval_eq_powerSum {a : Poly K} {x : K} (h : x ≠ 0 ∨ 0 ≤ a.first) :
    a.eval x = powerSum a.coeff x := by
  rw [funext a.coeff_eq_shiftedCoeff, powerSum_shiftedCoeff h, eval, nested_eq_eval]
  by_cases hfirst : a.first = 0
  · rw [if_pos hfirst, hfirst, zpow_zero, one_mul, toPolynomial]
  · rw [if_neg hfirst, scalar_power, mul_comm, toPolynomial]

/-- The value is that of the polynomial of the stored coefficients times the power of the variable
at which the window starts. -/
theorem eval_eq_zpow_mul {a : Poly K} {x : K} (h : x ≠ 0 ∨ 0 ≤ a.first) :
    a.eval x = x ^ a.first * a.toPolynomial.eval x := by
  rw [eval_eq_powerSum h, funext a.coeff_eq_shiftedCoeff, powerSum_shiftedCoeff h]

/-- The value of a product is the product of the values. -/
theorem powerSum_mul {a b : Poly K} {x : K} (h : x ≠ 0 ∨ 0 ≤ a.first ∧ 0 ≤ b.first) :
    powerSum (a * b).coeff x = powerSum a.coeff x * powerSum b.coeff x := by
  have hsum : x ≠ 0 ∨ 0 ≤ a.first + b.first := h.imp_right fun ⟨ha, hb⟩ => add_nonneg ha hb
  rw [funext (coeff_mul_eq_shiftedCoeff a b), funext a.coeff_eq_shiftedCoeff,
    funext b.coeff_eq_shiftedCoeff, powerSum_shiftedCoeff hsum,
    powerSum_shiftedCoeff (h.imp_right And.left), powerSum_shiftedCoeff (h.imp_right And.right),
    zpow_add_of_nonneg h, eval_mul]
  ring

end Poly

end PolynomialEquations
