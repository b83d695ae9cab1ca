import Mathlib.Algebra.Polynomial.FieldDivision
import Mathlib.Tactic.LinearCombination

/-!
# Solutions of bounded degree

The equation `A X + B Y = C` between polynomials over a field. When it can be solved at all, one
solution has `Y` below the degree of `A` and `X` as small as the degrees of `B` and `C` allow. When
`A` and `B` are coprime, such a `Y` has the least degree among all solutions; and the solutions of
the homogeneous equation are the multiples of one pair.
-/

namespace PolynomialEquations

open Polynomial

variable {F : Type} [Field F] [DecidableEq F]

omit [DecidableEq F] in
/-- The polynomials `A` and `B` as multiples of one polynomial `H` with coprime cofactors, so that
`H` is a greatest common divisor. -/
structure Cofactors (A B H A' B' : F[X]) : Prop where
  /-- The first polynomial. -/
  left_eq : A = H * A'
  /-- The second polynomial. -/
  right_eq : B = H * B'
  /-- Nothing more can be divided out. -/
  coprime : IsCoprime A' B'

/-- Divided by their greatest common divisor, two polynomials become coprime. -/
theorem exists_cofactors {A : F[X]} (hA : A ≠ 0) (B : F[X]) :
    ∃ A' B', Cofactors A B (EuclideanDomain.gcd A B) A' B' := by
  obtain ⟨A', hA'⟩ := EuclideanDomain.gcd_dvd_left A B
  obtain ⟨B', hB'⟩ := EuclideanDomain.gcd_dvd_right A B
  have hbezout := EuclideanDomain.gcd_eq_gcd_ab A B
  generalize EuclideanDomain.gcd A B = H at hA' hB' hbezout ⊢
  have hH : H ≠ 0 := left_ne_zero_of_mul (hA' ▸ hA)
  refine ⟨A', B', hA', hB', EuclideanDomain.gcdA A B, EuclideanDomain.gcdB A B, ?_⟩
  refine mul_left_cancel₀ hH ?_
  calc H * (EuclideanDomain.gcdA A B * A' + EuclideanDomain.gcdB A B * B')
      = H * A' * EuclideanDomain.gcdA A B + H * B' * EuclideanDomain.gcdB A B := by ring
    _ = A * EuclideanDomain.gcdA A B + B * EuclideanDomain.gcdB A B := by rw [← hA', ← hB']
    _ = H * 1 := by rw [← hbezout, mul_one]

section Factors

omit [DecidableEq F]

variable {A B H A' B' : F[X]}

/-- The roles of the two polynomials can be exchanged. -/
theorem Cofactors.symm (h : Cofactors A B H A' B') : Cofactors B A H B' A' :=
  ⟨h.right_eq, h.left_eq, h.coprime.symm⟩

/-- The common factor of a polynomial other than zero is not zero. -/
theorem Cofactors.common_ne_zero (h : Cofactors A B H A' B') (hA : A ≠ 0) : H ≠ 0 :=
  left_ne_zero_of_mul (h.left_eq ▸ hA)

/-- The cofactor of a polynomial other than zero is not zero. -/
theorem Cofactors.cofactor_ne_zero (h : Cofactors A B H A' B') (hA : A ≠ 0) : A' ≠ 0 :=
  right_ne_zero_of_mul (h.left_eq ▸ hA)

/-- The degree of a polynomial is shared between the common factor and its cofactor. -/
theorem Cofactors.natDegree_eq (h : Cofactors A B H A' B') (hA : A ≠ 0) :
    A.natDegree = H.natDegree + A'.natDegree := by
  rw [h.left_eq, natDegree_mul (h.common_ne_zero hA) (h.cofactor_ne_zero hA)]

/-- The cofactor is the quotient by the common factor. -/
theorem Cofactors.div_eq (h : Cofactors A B H A' B') (hA : A ≠ 0) : A / H = A' := by
  rw [h.left_eq, mul_div_cancel_left₀ _ (h.common_ne_zero hA)]

/-- The solutions of the homogeneous equation are the multiples of the pair of cofactors. -/
theorem Cofactors.homogeneous_iff (h : Cofactors A B H A' B') (hA : A ≠ 0) (X Y : F[X]) :
    A * X + B * Y = 0 ↔ ∃ q, X = -(B' * q) ∧ Y = A' * q := by
  have hfactor : A * X + B * Y = H * (A' * X + B' * Y) := by
    rw [h.left_eq, h.right_eq]
    ring
  rw [hfactor, mul_eq_zero_iff_left (h.common_ne_zero hA)]
  constructor
  · intro hreduced
    obtain ⟨q, hq⟩ : A' ∣ Y :=
      h.coprime.dvd_of_dvd_mul_left ⟨-X, by linear_combination hreduced⟩
    refine ⟨q, mul_left_cancel₀ (h.cofactor_ne_zero hA) ?_, hq⟩
    rw [hq] at hreduced
    linear_combination hreduced
  · rintro ⟨q, rfl, rfl⟩
    ring

/-- A cofactor times a number other than zero still divides the polynomial. -/
theorem Cofactors.mul_C_dvd (h : Cofactors A B H A' B') {t : F} (ht : t ≠ 0) : A' * C t ∣ A := by
  rw [(isUnit_C.mpr ht.isUnit).mul_right_dvd]
  exact ⟨H, h.left_eq.trans (mul_comm H A')⟩

/-- A number other than zero changes nothing about what the multiples of a solution are. -/
theorem Cofactors.exists_multiple (h : Cofactors A B H A' B') (hA : A ≠ 0) {t : F} (ht : t ≠ 0)
    {X Y : F[X]} (hXY : A * X + B * Y = 0) :
    ∃ q, X = q * -(B' * C t) ∧ Y = q * (A' * C t) := by
  obtain ⟨q, rfl, rfl⟩ := (h.homogeneous_iff hA X Y).mp hXY
  have hunit : (C t * C t⁻¹ : F[X]) = 1 := by rw [← C_mul, mul_inv_cancel₀ ht, C_1]
  refine ⟨q * C t⁻¹, ?_, ?_⟩
  · linear_combination (B' * q) * hunit
  · linear_combination (-(A' * q)) * hunit

end Factors

/-- The equation has no solution unless the greatest common divisor divides the right side. -/
theorem gcd_dvd_of_solution {A B C X Y : F[X]} (h : A * X + B * Y = C) :
    EuclideanDomain.gcd A B ∣ C := by
  rw [← h]
  exact dvd_add ((EuclideanDomain.gcd_dvd_left A B).mul_right X)
    ((EuclideanDomain.gcd_dvd_right A B).mul_right Y)

omit [DecidableEq F] in
/-- The degree of a product with `A` bounds that of the other factor, and the other way round. -/
theorem degree_mul_lt_iff {A : F[X]} (hA : A ≠ 0) (X : F[X]) (m : ℕ) :
    (A * X).degree < (m : WithBot ℕ) ↔ X.degree < ((m - A.natDegree : ℕ) : WithBot ℕ) := by
  by_cases hX : X = 0
  · rw [hX, mul_zero, degree_zero]
    exact iff_of_true (WithBot.bot_lt_coe _) (WithBot.bot_lt_coe _)
  · rw [degree_eq_natDegree (mul_ne_zero hA hX), natDegree_mul hA hX, degree_eq_natDegree hX,
      Nat.cast_lt, Nat.cast_lt]
    omega

/-- An equation that can be solved has a solution with `Y` below the degree of `A`, and with `X`
small enough for both products to end below exponent `m`. -/
theorem exists_bounded_solution {A B C : F[X]} (hA : A ≠ 0) (hB : B ≠ 0)
    (hdvd : EuclideanDomain.gcd A B ∣ C) {m : ℕ} (hm : A.natDegree + B.natDegree ≤ m)
    (hC : C.degree < (m : WithBot ℕ)) :
    ∃ X Y, A * X + B * Y = C ∧ X.degree < ((m - A.natDegree : ℕ) : WithBot ℕ) ∧
      Y.degree < (A.natDegree : WithBot ℕ) := by
  obtain ⟨A', B', hA', hB', u, v, hcoprime⟩ := exists_cofactors hA B
  obtain ⟨C', hC'⟩ := hdvd
  generalize EuclideanDomain.gcd A B = H at hA' hB' hC'
  have hA'ne : A' ≠ 0 := right_ne_zero_of_mul (hA' ▸ hA)
  -- reduce one solution modulo the cofactor of `A`
  let X := u * C' + B' * (v * C' / A')
  let Y := v * C' % A'
  have hsolves : A * X + B * Y = C := by
    have hreduced : A' * X + B' * Y = C' := by
      calc A' * X + B' * Y
          = A' * u * C' + B' * (v * C' % A' + A' * (v * C' / A')) := by
            simp only [X, Y]
            ring
        _ = (u * A' + v * B') * C' := by
            rw [EuclideanDomain.mod_add_div]
            ring
        _ = C' := by rw [hcoprime, one_mul]
    calc A * X + B * Y = H * A' * X + H * B' * Y := by rw [← hA', ← hB']
      _ = H * (A' * X + B' * Y) := by ring
      _ = C := by rw [hreduced, ← hC']
  have hA'le : A'.natDegree ≤ A.natDegree := natDegree_le_of_dvd ⟨_, hA'.trans (mul_comm _ _)⟩ hA
  have hY : Y.degree < (A.natDegree : WithBot ℕ) := by
    refine lt_of_lt_of_le (degree_mod_lt _ hA'ne) ?_
    rw [degree_eq_natDegree hA'ne]
    exact_mod_cast hA'le
  refine ⟨X, Y, hsolves, (degree_mul_lt_iff hA X m).mp ?_, hY⟩
  have hBY : (B * Y).degree < (m : WithBot ℕ) := by
    rw [degree_mul, degree_eq_natDegree hB]
    refine lt_of_lt_of_le (WithBot.add_lt_add_left (WithBot.coe_ne_bot) hY) ?_
    exact_mod_cast (show B.natDegree + A.natDegree ≤ m by omega)
  rw [eq_sub_of_add_eq hsolves]
  exact lt_of_le_of_lt (degree_sub_le _ _) (max_lt hC hBY)

omit [DecidableEq F] in
/-- With coprime coefficients, a solution whose `Y` lies below the degree of `A` has the least
degree of `Y`. -/
theorem degree_le_of_isCoprime {A B X Y X' Y' : F[X]} (hcoprime : IsCoprime A B)
    (heq : A * X + B * Y = A * X' + B * Y') (hY : Y.degree < A.degree) :
    Y.degree ≤ Y'.degree := by
  by_contra hlt
  rw [not_le] at hlt
  have hdvd : A ∣ Y - Y' := by
    refine hcoprime.dvd_of_dvd_mul_left ⟨X' - X, ?_⟩
    linear_combination heq
  have hsmall : (Y - Y').degree < A.degree := by
    rw [degree_sub_eq_left_of_degree_lt hlt]
    exact hY
  have hzero := eq_zero_of_dvd_of_degree_lt hdvd hsmall
  rw [sub_eq_zero] at hzero
  rw [hzero] at hlt
  exact lt_irrefl _ hlt

end PolynomialEquations
