import PolynomialEquations.Proofs.Poly.Coefficients
import Mathlib.Algebra.Polynomial.Degree.Operations
import Mathlib.Algebra.Polynomial.Degree.Lemmas
import Mathlib.Algebra.Polynomial.Coeff

/-!
# Ordinary polynomials as polynomials over a ring

An ordinary polynomial value stands for the polynomial with its stored coefficients. Arithmetic on
values is arithmetic on what they stand for, the zero test and the degree are those of the
polynomial, and the stored coefficients of a trimmed value reach exactly to the leading one.
-/

namespace PolynomialEquations

open Polynomial

section Vectors

variable {K : Type} [Semiring K]

/-- The polynomial whose coefficients are the entries of a vector, constant term first. -/
noncomputable def vectorPolynomial (v : Array K) : K[X] :=
  ∑ i ∈ Finset.range v.size, monomial i (v.getD i 0)

@[simp] theorem coeff_vectorPolynomial (v : Array K) (n : ℕ) :
    (vectorPolynomial v).coeff n = v.getD n 0 := by
  simp only [vectorPolynomial, finsetSum_coeff, coeff_monomial, Finset.sum_ite_eq',
    Finset.mem_range]
  by_cases hn : n < v.size
  · rw [if_pos hn]
  · rw [if_neg hn, getD_of_size_le (by omega)]

/-- A vector of at most `n` entries stands for a polynomial of degree less than `n`. -/
theorem degree_vectorPolynomial_lt {v : Array K} {n : ℕ} (hv : v.size ≤ n) :
    (vectorPolynomial v).degree < (n : WithBot ℕ) := by
  rw [degree_lt_iff_coeff_zero]
  intro m hm
  have hnm : n ≤ m := by exact_mod_cast hm
  rw [coeff_vectorPolynomial, getD_of_size_le (hv.trans hnm)]

/-- Two vectors with the same entries stand for the same polynomial. -/
theorem vectorPolynomial_congr {u v : Array K} (h : ∀ i, u.getD i 0 = v.getD i 0) :
    vectorPolynomial u = vectorPolynomial v := by
  ext n
  rw [coeff_vectorPolynomial, coeff_vectorPolynomial, h]

/-- Two vectors of one size that stand for the same polynomial are equal. -/
theorem eq_of_vectorPolynomial_eq {u v : Array K} (hsize : u.size = v.size)
    (h : vectorPolynomial u = vectorPolynomial v) : u = v := by
  refine eq_of_getD_eq hsize fun i => ?_
  rw [← coeff_vectorPolynomial, h, coeff_vectorPolynomial]

/-- Every polynomial of degree less than `n` has a stored vector of size `n`. -/
theorem exists_vectorPolynomial_eq {p : K[X]} {n : ℕ} (hp : p.degree < (n : WithBot ℕ)) :
    ∃ v, v.size = n ∧ vectorPolynomial v = p := by
  refine ⟨Array.ofFn fun i : Fin n => p.coeff i, Array.size_ofFn, ?_⟩
  ext i
  rw [coeff_vectorPolynomial, getD_ofFn]
  split
  · rfl
  · next hi => exact ((degree_lt_iff_coeff_zero p n).mp hp i (by omega)).symm

/-- One coefficient stands for a constant. -/
theorem vectorPolynomial_singleton (t : K) : vectorPolynomial #[t] = C t := by
  ext n
  rw [coeff_vectorPolynomial, coeff_C]
  cases n with
  | zero => rfl
  | succ n => exact getD_of_size_le (by simp)

/-- Two coefficients stand for a polynomial of degree one or less. -/
theorem vectorPolynomial_pair (t u : K) : vectorPolynomial #[t, u] = C u * X + C t := by
  ext n
  rw [coeff_vectorPolynomial, coeff_add, coeff_C_mul]
  rcases n with _ | _ | n
  · simp
  · simp
  · simp [coeff_X]

/-- A convolution stands for the product. -/
theorem vectorPolynomial_convolution (u v : Array K) :
    vectorPolynomial (Poly.convolution u v) = vectorPolynomial u * vectorPolynomial v := by
  ext n
  rw [coeff_vectorPolynomial, getD_convolution, coeff_mul,
    Finset.Nat.sum_antidiagonal_eq_sum_range_succ_mk]
  simp only [coeff_vectorPolynomial]

end Vectors

namespace Poly

section Semiring

variable {K : Type} [Semiring K]

/-- The polynomial that an ordinary polynomial value stands for. -/
noncomputable def toPolynomial (a : Poly K) : K[X] := vectorPolynomial a.coef

@[simp] theorem coeff_toPolynomial (a : Poly K) (n : ℕ) :
    a.toPolynomial.coeff n = a.coef.getD n 0 := coeff_vectorPolynomial a.coef n

variable [BEq K] [LawfulBEq K]

/-- A value as the constructor of ordinary polynomials builds it. -/
structure IsOrdinary (a : Poly K) : Prop where
  /-- The exponents start at zero. -/
  variant_eq : a.variant = .ordinary
  /-- There is no zero at the end of the coefficients, unless all are zero. -/
  trimmed : a.Trimmed

/-- The constructor of ordinary polynomials builds ordinary values. -/
theorem isOrdinary_ofCoef (c : Array K) (s : String) : (ofCoef c s).IsOrdinary :=
  ⟨variant_ofCoef c s, trimmed_ofCoef c s⟩

theorem isOrdinary_constant (t : K) (s : String) : (constant t s).IsOrdinary :=
  isOrdinary_ofCoef _ _

theorem isOrdinary_assemble (first : ℤ) (c : Array K) (s : String) :
    (assemble .ordinary first c s).IsOrdinary :=
  ⟨variant_assemble _ _ _ _, trimmed_assemble _ _ _ _⟩

/-- Trimming does not change the polynomial. -/
@[simp] theorem toPolynomial_ofCoef (c : Array K) (s : String) :
    (ofCoef c s).toPolynomial = vectorPolynomial c :=
  vectorPolynomial_congr (getD_coef_ofCoef c s)

/-- Two coefficients stand for a polynomial of degree one or less. -/
theorem toPolynomial_linear (t u : K) (s : String) :
    (ofCoef #[t, u] s).toPolynomial = C u * X + C t := by
  rw [toPolynomial_ofCoef, vectorPolynomial_pair]

/-- Three coefficients stand for a polynomial of degree two or less. -/
theorem toPolynomial_quadratic (t u v : K) (s : String) :
    (ofCoef #[t, u, v] s).toPolynomial = C v * X ^ 2 + C u * X + C t := by
  ext n
  rw [toPolynomial_ofCoef, coeff_vectorPolynomial, Polynomial.coeff_add, Polynomial.coeff_add,
    coeff_C_mul, coeff_C_mul]
  rcases n with _ | _ | _ | n
  · simp
  · simp
  · simp [coeff_X]
  · simp [coeff_X, coeff_X_pow]

/-- A constant value stands for the constant. -/
theorem toPolynomial_constant (t : K) (s : String) : (constant t s).toPolynomial = C t := by
  rw [constant, toPolynomial_ofCoef, vectorPolynomial_singleton]

@[simp] theorem toPolynomial_constant_zero (s : String) :
    (constant (0 : K) s).toPolynomial = 0 := by
  rw [toPolynomial_constant, C_0]

/-- An ordinary polynomial assembled from a window that starts at exponent zero has the entries of
the window as coefficients. -/
theorem toPolynomial_assemble (c : Array K) (s : String) :
    (assemble .ordinary 0 c s).toPolynomial = vectorPolynomial c := by
  rw [assemble, toPolynomial_ofCoef]
  exact vectorPolynomial_congr fun i => by simp

omit [Semiring K] [BEq K] [LawfulBEq K] in
/-- The kind of a result is ordinary when both operands are. -/
theorem join_variant {a b : Poly K} (ha : a.variant = .ordinary) (hb : b.variant = .ordinary) :
    a.variant.join b.variant = .ordinary := by
  rw [ha, hb]
  rfl

/-- The sum of ordinary values is ordinary. -/
theorem isOrdinary_add {a b : Poly K} (ha : a.variant = .ordinary) (hb : b.variant = .ordinary) :
    (a + b).IsOrdinary := by
  change (assemble (a.variant.join b.variant) _ _ _).IsOrdinary
  rw [join_variant ha hb]
  exact isOrdinary_assemble _ _ _

/-- The product of ordinary values is ordinary. -/
theorem isOrdinary_mul {a b : Poly K} (ha : a.variant = .ordinary) (hb : b.variant = .ordinary) :
    (a * b).IsOrdinary := by
  change (assemble (a.variant.join b.variant) _ _ _).IsOrdinary
  rw [join_variant ha hb]
  exact isOrdinary_assemble _ _ _

/-- Addition of ordinary values is addition of polynomials. -/
theorem toPolynomial_add {a b : Poly K} (ha : a.variant = .ordinary) (hb : b.variant = .ordinary) :
    (a + b).toPolynomial = a.toPolynomial + b.toPolynomial := by
  ext n
  rw [Polynomial.coeff_add, coeff_toPolynomial, coeff_toPolynomial, coeff_toPolynomial,
    ← coeff_natCast (isOrdinary_add ha hb).variant_eq, ← coeff_natCast ha, ← coeff_natCast hb,
    coeff_add]

/-- Multiplication of ordinary values is multiplication of polynomials. -/
theorem toPolynomial_mul {a b : Poly K} (ha : a.variant = .ordinary) (hb : b.variant = .ordinary) :
    (a * b).toPolynomial = a.toPolynomial * b.toPolynomial := by
  change (assemble (a.variant.join b.variant) (a.first + b.first) _ _).toPolynomial = _
  rw [join_variant ha hb, first_eq_zero_of_ordinary ha, first_eq_zero_of_ordinary hb, add_zero,
    toPolynomial_assemble, vectorPolynomial_convolution]
  rfl

omit [LawfulBEq K] in
/-- A product takes its symbol from the first factor. -/
@[simp] theorem symbol_mul (a b : Poly K) : (a * b).symbol = a.symbol := symbol_assemble _ _ _ _

/-- A multiple of an ordinary value is ordinary. -/
theorem isOrdinary_scalarMul {a : Poly K} (ha : a.variant = .ordinary) (t : K) :
    (a.scalarMul t).IsOrdinary :=
  isOrdinary_mul ha (isOrdinary_constant t a.symbol).variant_eq

/-- Multiplication with a scalar is multiplication with the constant. -/
theorem toPolynomial_scalarMul {a : Poly K} (ha : a.variant = .ordinary) (t : K) :
    (a.scalarMul t).toPolynomial = a.toPolynomial * C t := by
  rw [← toPolynomial_constant t a.symbol]
  exact toPolynomial_mul ha (isOrdinary_constant t a.symbol).variant_eq

/-- A value counts as zero exactly when it stands for the zero polynomial. -/
theorem isZero_iff (a : Poly K) : a.isZero = true ↔ a.toPolynomial = 0 := by
  rw [isZero, Array.all_eq_true, Polynomial.ext_iff]
  simp only [beq_iff_eq, coeff_toPolynomial, coeff_zero]
  constructor
  · intro h n
    by_cases hn : n < a.coef.size
    · rw [getD_of_lt_size hn, h n hn]
    · exact getD_of_size_le (by omega)
  · intro h n hn
    rw [← h n, getD_of_lt_size hn]

/-- A value that does not count as zero stands for a polynomial other than zero. -/
theorem toPolynomial_ne_zero {a : Poly K} (h : a.isZero = false) : a.toPolynomial ≠ 0 := by
  intro hzero
  rw [(isZero_iff a).mpr hzero] at h
  exact Bool.noConfusion h

/-- A value that stands for a polynomial other than zero does not count as zero. -/
theorem isZero_eq_false {a : Poly K} (h : a.toPolynomial ≠ 0) : a.isZero = false := by
  rw [← Bool.not_eq_true, isZero_iff]
  exact h

/-- A value built from coefficients that are not all zero does not count as zero. -/
theorem isZero_ofCoef {c : Array K} {i : ℕ} (hi : c.getD i 0 ≠ 0) (s : String) :
    (ofCoef c s).isZero = false := by
  refine isZero_eq_false fun hzero => hi ?_
  rw [toPolynomial_ofCoef] at hzero
  rw [← coeff_vectorPolynomial, hzero, coeff_zero]

/-- The stored coefficients of a trimmed value end with the leading one. -/
theorem Trimmed.size_coef {a : Poly K} (ha : a.Trimmed) :
    a.coef.size = a.toPolynomial.natDegree + 1 := by
  cases hzero : a.isZero with
  | true =>
    rw [(isZero_iff a).mp hzero, (ha.eq_singleton hzero).2]
    rfl
  | false =>
    obtain ⟨hpos, hlast⟩ := ha.getD_last_ne_zero hzero
    have hdegree : a.toPolynomial.natDegree = a.coef.size - 1 := by
      refine natDegree_eq_of_le_of_coeff_ne_zero ?_ ?_
      · rw [natDegree_le_iff_coeff_eq_zero]
        intro m hm
        rw [coeff_toPolynomial, getD_of_size_le (by omega)]
      · rwa [coeff_toPolynomial]
    omega

/-- The stored coefficients of an ordinary value end with the leading one. -/
theorem IsOrdinary.size_coef {a : Poly K} (ha : a.IsOrdinary) :
    a.coef.size = a.toPolynomial.natDegree + 1 := ha.trimmed.size_coef

/-- Ordinary values that stand for the same polynomial store the same coefficients. -/
theorem IsOrdinary.coef_eq {a b : Poly K} (ha : a.IsOrdinary) (hb : b.IsOrdinary)
    (h : a.toPolynomial = b.toPolynomial) : a.coef = b.coef :=
  eq_of_vectorPolynomial_eq (by rw [ha.size_coef, hb.size_coef, h]) h

/-- Ordinary values that stand for the same polynomial differ in their symbols only. -/
theorem IsOrdinary.withSymbol_eq {a b : Poly K} (ha : a.IsOrdinary) (hb : b.IsOrdinary)
    (h : a.toPolynomial = b.toPolynomial) : a.withSymbol b.symbol = b := by
  have hcoef := ha.coef_eq hb h
  cases a with
  | laurent => exact nomatch ha.variant_eq
  | ordinary c s =>
    cases b with
    | laurent => exact nomatch hb.variant_eq
    | ordinary c' s' =>
      obtain rfl : c = c' := hcoef
      rfl

/-- Ordinary values with one symbol that stand for the same polynomial are equal. -/
theorem IsOrdinary.eq_of_toPolynomial_eq {a b : Poly K} (ha : a.IsOrdinary) (hb : b.IsOrdinary)
    (hsymbol : a.symbol = b.symbol) (h : a.toPolynomial = b.toPolynomial) : a = b := by
  rw [← ha.withSymbol_eq hb h, ← hsymbol]
  cases a <;> rfl

/-- The degree of an ordinary value other than zero. -/
theorem IsOrdinary.degree_eq {a : Poly K} (ha : a.IsOrdinary) (hzero : a.isZero = false) :
    a.degree = a.toPolynomial.natDegree := by
  rw [degree, if_neg (by simp [hzero]), last, first_eq_zero_of_ordinary ha.variant_eq, ha.size_coef]
  push_cast
  omega

/-- The coefficient at the degree is the leading one, which is zero for the zero polynomial. -/
theorem IsOrdinary.coeff_degree {a : Poly K} (ha : a.IsOrdinary) :
    a.coeff a.degree = a.toPolynomial.leadingCoeff := by
  by_cases hzero : a.isZero = true
  · rw [(isZero_iff a).mp hzero, leadingCoeff_zero, coeff, degree, if_pos hzero,
      first_eq_zero_of_ordinary ha.variant_eq, if_neg (by omega)]
  · rw [ha.degree_eq (by simpa using hzero), coeff_natCast ha.variant_eq, ← coeff_toPolynomial]
    rfl

/-- One coefficient other than zero has degree zero. -/
theorem degree_singleton {t : K} (ht : t ≠ 0) (s : String) : (ofCoef #[t] s).degree = 0 := by
  have hzero := isZero_ofCoef (c := #[t]) (i := 0) ht s
  rw [(isOrdinary_ofCoef #[t] s).degree_eq hzero, toPolynomial_ofCoef, vectorPolynomial_singleton,
    natDegree_C, Nat.cast_zero]

/-- Two coefficients, the second one not zero, have degree one. -/
theorem degree_linear (t : K) {u : K} (hu : u ≠ 0) (s : String) :
    (ofCoef #[t, u] s).degree = 1 := by
  have hzero := isZero_ofCoef (c := #[t, u]) (i := 1) hu s
  rw [(isOrdinary_ofCoef #[t, u] s).degree_eq hzero, toPolynomial_linear, natDegree_linear hu,
    Nat.cast_one]

/-- Three coefficients, the third one not zero, have degree two. -/
theorem degree_quadratic (t u : K) {v : K} (hv : v ≠ 0) (s : String) :
    (ofCoef #[t, u, v] s).degree = 2 := by
  have hzero := isZero_ofCoef (c := #[t, u, v]) (i := 2) hv s
  rw [(isOrdinary_ofCoef #[t, u, v] s).degree_eq hzero, toPolynomial_quadratic,
    natDegree_quadratic hv, Nat.cast_two]

omit [LawfulBEq K] in
/-- The zero polynomial has degree minus one. -/
theorem degree_of_isZero {a : Poly K} (hzero : a.isZero = true) : a.degree = -1 := by
  rw [degree, if_pos hzero]

/-- The degree of an ordinary value is at least minus one. -/
theorem IsOrdinary.neg_one_le_degree {a : Poly K} (ha : a.IsOrdinary) : -1 ≤ a.degree := by
  by_cases hzero : a.isZero = true
  · rw [degree_of_isZero hzero]
  · rw [ha.degree_eq (by simpa using hzero)]
    omega

/-- The degree of an ordinary value is that of its polynomial. -/
theorem IsOrdinary.degree_congr {a b : Poly K} (ha : a.IsOrdinary) (hb : b.IsOrdinary)
    (h : a.toPolynomial.degree = b.toPolynomial.degree) : a.degree = b.degree := by
  have hzero : a.isZero = true ↔ b.isZero = true := by
    rw [isZero_iff, isZero_iff, ← degree_eq_bot, h, degree_eq_bot]
  by_cases hb0 : b.isZero = true
  · rw [degree_of_isZero hb0, degree_of_isZero (hzero.mpr hb0)]
  · rw [hb.degree_eq (by simpa using hb0), ha.degree_eq (by simpa using hzero.not.mpr hb0),
      natDegree_eq_of_degree_eq h]

/-- An ordinary value stores one coefficient more than its degree, and one if it is zero. -/
theorem IsOrdinary.size_coef_eq {a : Poly K} (ha : a.IsOrdinary) :
    (a.coef.size : ℤ) = max a.degree 0 + 1 := by
  rw [ha.size_coef]
  by_cases hzero : a.isZero = true
  · rw [degree_of_isZero hzero, (isZero_iff a).mp hzero]
    rfl
  · rw [ha.degree_eq (by simpa using hzero)]
    push_cast
    omega

/-- The degree of an ordinary value lies below a bound exactly when that of the polynomial does. -/
theorem IsOrdinary.degree_lt_iff {a : Poly K} (ha : a.IsOrdinary) (n : ℕ) :
    a.degree < n ↔ a.toPolynomial.degree < (n : WithBot ℕ) := by
  by_cases hzero : a.isZero = true
  · rw [degree_of_isZero hzero, (isZero_iff a).mp hzero, degree_zero]
    exact iff_of_true (by omega) (WithBot.bot_lt_coe n)
  · have hne := toPolynomial_ne_zero (by simpa using hzero)
    rw [ha.degree_eq (by simpa using hzero), degree_eq_natDegree hne]
    norm_cast

end Semiring

section Ring

variable {K : Type} [Ring K] [BEq K] [LawfulBEq K]

/-- The negative of an ordinary value is ordinary. -/
theorem isOrdinary_neg {a : Poly K} (ha : a.variant = .ordinary) :
    (-a).IsOrdinary := by
  change (assemble a.variant _ _ _).IsOrdinary
  rw [ha]
  exact isOrdinary_assemble _ _ _

/-- Negation of ordinary values is negation of polynomials. -/
theorem toPolynomial_neg {a : Poly K} (ha : a.variant = .ordinary) :
    (-a).toPolynomial = -a.toPolynomial := by
  change (assemble a.variant a.first _ _).toPolynomial = _
  rw [ha, first_eq_zero_of_ordinary ha, toPolynomial_assemble]
  ext n
  rw [Polynomial.coeff_neg, coeff_toPolynomial, coeff_vectorPolynomial, getD_map neg_zero]

/-- Subtraction of ordinary values is subtraction of polynomials. -/
theorem toPolynomial_sub {a b : Poly K} (ha : a.variant = .ordinary) (hb : b.variant = .ordinary) :
    (a - b).toPolynomial = a.toPolynomial - b.toPolynomial := by
  change (a + -b).toPolynomial = _
  rw [toPolynomial_add ha (isOrdinary_neg hb).variant_eq, toPolynomial_neg hb, sub_eq_add_neg]

end Ring

end Poly

end PolynomialEquations
