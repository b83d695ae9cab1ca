import PolynomialEquations.Proofs.Analysis.Coprime
import PolynomialEquations.Proofs.Poly.Laurent
import Mathlib.Algebra.Polynomial.Laurent

/-!
# The rank test for Laurent polynomials

In the ring of Laurent polynomials the powers of the variable are units, so whether two Laurent
polynomials are coprime does not depend on where their exponents start. The blocks of the Sylvester
matrix hold the coefficients alone, but their widths are the highest exponents. The test is thus off
by the smaller one of the first exponents: it is right when that one is zero, and it breaks off when
a highest exponent is negative.
-/

namespace PolynomialEquations

open Polynomial
open LaurentPolynomial (T)
open scoped LaurentPolynomial

section Coefficients

variable {K : Type} [Semiring K]

/-- A power of the variable times a polynomial has the shifted coefficients of the polynomial. -/
theorem coeff_T_mul_toLaurent (m : ℤ) (P : K[X]) (k : ℤ) :
    (T m * toLaurent P).coeff k = shiftedCoeff m P k := by
  have hshift : (T m * toLaurent P).coeff k = (toLaurent P).coeff (-m + k) := by
    rw [LaurentPolynomial.T, AddMonoidAlgebra.coeff_single_mul_apply, one_mul]
  rw [hshift, LaurentPolynomial.coeff_toLaurent, shiftedCoeff]
  split
  · next hle =>
    have hk : -m + k = Nat.castEmbedding (R := ℤ) (k - m).toNat := by
      rw [Nat.castEmbedding_apply]
      omega
    rw [hk, Finsupp.mapDomain_apply Nat.castEmbedding.injective]
    rfl
  · next hlt =>
    refine Finsupp.mapDomain_of_notMem_range _ _ ?_
    rintro ⟨n, hn⟩
    rw [Nat.castEmbedding_apply] at hn
    omega

/-- The Laurent polynomial with the coefficients of a value. -/
noncomputable def Poly.toLaurentPolynomial (a : Poly K) : K[T;T⁻¹] :=
  T a.first * Polynomial.toLaurent a.toPolynomial

/-- The coefficients are those of the value. -/
theorem Poly.coeff_toLaurentPolynomial (a : Poly K) (k : ℤ) :
    a.toLaurentPolynomial.coeff k = a.coeff k := by
  rw [toLaurentPolynomial, coeff_T_mul_toLaurent, coeff_eq_shiftedCoeff]

end Coefficients

section Ring

variable {F : Type} [Field F]

/-- The units among the Laurent polynomials are the powers of the variable times a number other than
zero. -/
theorem isUnit_laurent_iff {D : F[T;T⁻¹]} :
    IsUnit D ↔ ∃ (t : F) (k : ℤ), t ≠ 0 ∧ D = LaurentPolynomial.C t * T k := by
  constructor
  · intro hD
    obtain ⟨D', hD'⟩ := hD.exists_right_inv
    obtain ⟨m, P, hP⟩ := D.exists_T_pow
    obtain ⟨n, Q, hQ⟩ := D'.exists_T_pow
    have hproduct : P * Q = X ^ (m + n) := by
      apply toLaurent_injective
      rw [map_mul, hP, hQ, toLaurent_X_pow, Nat.cast_add, LaurentPolynomial.T_add, mul_mul_mul_comm,
        hD', one_mul]
    obtain ⟨i, -, hi⟩ := (dvd_prime_pow prime_X _).mp (Dvd.intro Q hproduct)
    obtain ⟨u, hu⟩ := hi.symm
    obtain ⟨t, ht, hC⟩ := isUnit_iff_exists_C.mp u.isUnit
    refine ⟨t, i - m, ht, ?_⟩
    have hshift : D * T m * T (-m) = D := by
      rw [LaurentPolynomial.mul_T_assoc, add_neg_cancel, LaurentPolynomial.T_zero, mul_one]
    rw [← hshift, ← hP, ← hu, hC, map_mul, toLaurent_X_pow, toLaurent_C, LaurentPolynomial.T_mul,
      LaurentPolynomial.mul_T_assoc, sub_eq_add_neg]
  · rintro ⟨t, k, ht, rfl⟩
    exact (ht.isUnit.map LaurentPolynomial.C).mul (LaurentPolynomial.isUnit_T k)

/-- A polynomial with a constant term that is a unit among the Laurent polynomials is a number. -/
theorem isUnit_of_isUnit_toLaurent {P : F[X]} (hP : P.coeff 0 ≠ 0) (h : IsUnit (toLaurent P)) :
    IsUnit P := by
  obtain ⟨t, k, ht, hk⟩ := isUnit_laurent_iff.mp h
  have hcoeff : (toLaurent P).coeff 0 = P.coeff 0 := by
    rw [← shiftedCoeff_self 0 P, ← coeff_T_mul_toLaurent, LaurentPolynomial.T_zero, one_mul]
  have hzero : k = 0 := by
    by_contra hne
    rw [hk, ← LaurentPolynomial.single_eq_C_mul_T, AddMonoidAlgebra.coeff_single,
      Finsupp.single_eq_of_ne (Ne.symm hne)] at hcoeff
    exact hP hcoeff.symm
  rw [hzero, LaurentPolynomial.T_zero, mul_one, ← toLaurent_C] at hk
  exact isUnit_iff_exists_C.mpr ⟨t, ht, toLaurent_injective hk⟩

/-- Polynomials with a constant term are coprime exactly when they have no common divisor among the
Laurent polynomials, wherever their exponents start. -/
theorem isRelPrime_laurent_iff {P Q : F[X]} (hP : P.coeff 0 ≠ 0) (m n : ℤ) :
    IsRelPrime (T m * toLaurent P) (T n * toLaurent Q) ↔ IsCoprime P Q := by
  rw [isRelPrime_mul_unit_left_left (LaurentPolynomial.isUnit_T m),
    isRelPrime_mul_unit_left_right (LaurentPolynomial.isUnit_T n)]
  constructor
  · intro h
    rw [← isRelPrime_iff_isCoprime]
    intro D hDP hDQ
    have hD : D.coeff 0 ≠ 0 := by
      obtain ⟨P', rfl⟩ := hDP
      rw [mul_coeff_zero] at hP
      exact left_ne_zero_of_mul hP
    exact isUnit_of_isUnit_toLaurent hD (h (map_dvd toLaurent hDP) (map_dvd toLaurent hDQ))
  · intro h
    exact (h.map toLaurent).isRelPrime

end Ring

section Literals

variable {K : Type} [Semiring K] [BEq K] [LawfulBEq K] {c : Array K}

/-- Stored coefficients without a zero at either end are those of a Laurent polynomial other than
zero, whose degree is the exponent of the last one. -/
theorem Poly.isLaurent_laurent (hfirst : c.getD 0 0 ≠ 0) (hlast : c.getD (c.size - 1) 0 ≠ 0)
    (first : ℤ) (s : String) :
    (laurent first c s).IsLaurent ∧ (laurent first c s).isZero = false ∧
      (laurent first c s).degree = first + c.size - 1 := by
  have hsize : 0 < c.size := by
    by_contra hempty
    exact hfirst (getD_of_size_le (by omega))
  have hzero : (laurent first c s).isZero = false := by
    have hcoeff := coeff_first_add (laurent first c s) 0
    exact isZero_eq_false_of_coeff (hcoeff.trans_ne hfirst)
  refine ⟨⟨rfl, Or.inr ⟨hsize, beq_false_of_ne hfirst, beq_false_of_ne hlast⟩⟩, hzero, ?_⟩
  rw [degree, if_neg (by simp [hzero])]
  rfl

/-- A unit of the ring has only one coefficient. -/
theorem Poly.IsLaurent.first_eq_last {a : Poly K} (ha : a.IsLaurent) (hzero : a.isZero = false)
    {t : K} {k : ℤ} (h : a.toLaurentPolynomial = LaurentPolynomial.C t * T k) :
    a.first = a.last := by
  have hcoeff : ∀ m, a.coeff m ≠ 0 → m = k := by
    intro m hm
    by_contra hne
    rw [← coeff_toLaurentPolynomial, h, ← LaurentPolynomial.single_eq_C_mul_T,
      AddMonoidAlgebra.coeff_single, Finsupp.single_eq_of_ne hne] at hm
    exact hm rfl
  rw [hcoeff _ (ha.trimmed.coeff_first_ne_zero ha.variant_eq hzero),
    hcoeff _ (ha.trimmed.coeff_last_ne_zero hzero)]

end Literals

section Answer

variable {K : Type} [RCLike K] {kernels : LinearKernels K} {a b : Poly K}

/-- The test breaks off when a highest exponent is negative. -/
theorem isCoprime_of_degree_neg (hazero : a.isZero = false) (hbzero : b.isZero = false)
    (hdegree : a.degree < 0 ∨ b.degree < 0) :
    isCoprime kernels a b = .error (.negativeWidth (showWidths b.degree a.degree)) := by
  rw [isCoprime, if_neg (by simp [hazero, hbzero]), resultantMatrix, sylvester?,
    if_pos hdegree.symm]
  rfl

/-- The rank of the Sylvester matrix whose widths are the highest exponents. -/
theorem rank_sylvester_laurent (ha : a.IsLaurent) (hb : b.IsLaurent) (hazero : a.isZero = false)
    (hbzero : b.isZero = false) (hadegree : 0 ≤ a.degree) (hbdegree : 0 ≤ b.degree) :
    ((sylvester a b b.degree.toNat a.degree.toNat).rank : ℤ) = a.degree + b.degree ↔
      (EuclideanDomain.gcd a.toPolynomial b.toPolynomial).natDegree + min a.first b.first ≤ 0 := by
  have hA := Poly.toPolynomial_ne_zero hazero
  have hB := Poly.toPolynomial_ne_zero hbzero
  obtain ⟨A', B', h⟩ := exists_cofactors hA b.toPolynomial
  have hsum := (sylvester a b b.degree.toNat a.degree.toNat).rank_add_finrank_kernel
  rw [h.finrank_kernel_sylvester hA hB, cols_sylvester] at hsum
  have hleft := h.natDegree_eq hA
  have hright := h.symm.natDegree_eq hB
  have halast : a.degree = a.last := by rw [Poly.degree, if_neg (by simp [hazero])]
  have hblast : b.degree = b.last := by rw [Poly.degree, if_neg (by simp [hbzero])]
  have hawidth := ha.natDegree_eq
  have hbwidth := hb.natDegree_eq
  omega

/-- Otherwise the test compares the degree of the greatest common divisor of the coefficients with
the smaller one of the first exponents. -/
theorem isCoprime_of_degree_nonneg (hk : kernels.RanksExactly) (ha : a.IsLaurent) (hb : b.IsLaurent)
    (hazero : a.isZero = false) (hbzero : b.isZero = false) (hadegree : 0 ≤ a.degree)
    (hbdegree : 0 ≤ b.degree) :
    ∃ answer, isCoprime kernels a b = .ok answer ∧
      (answer = true ↔ (EuclideanDomain.gcd a.toPolynomial b.toPolynomial).natDegree +
        min a.first b.first ≤ 0) := by
  let S := sylvester a b b.degree.toNat a.degree.toNat
  have hmatrix : resultantMatrix a b = .ok S := by
    rw [resultantMatrix, sylvester?, if_neg (by omega)]
  refine ⟨_, isCoprime_eq_of_resultantMatrix hk hazero hbzero hmatrix, ?_⟩
  rw [beq_iff_eq, rank_sylvester_laurent ha hb hazero hbzero hadegree hbdegree]

/-- The operands have no common divisor among the Laurent polynomials besides the units exactly when
the greatest common divisor of their coefficients is a number. -/
theorem Poly.IsLaurent.common_divisors_iff (ha : a.IsLaurent) (hazero : a.isZero = false) :
    (∀ D : K[T;T⁻¹], D ∣ a.toLaurentPolynomial → D ∣ b.toLaurentPolynomial →
        ∃ (t : K) (k : ℤ), t ≠ 0 ∧ D = LaurentPolynomial.C t * T k) ↔
      (EuclideanDomain.gcd a.toPolynomial b.toPolynomial).natDegree = 0 := by
  obtain ⟨A', B', h⟩ := exists_cofactors (toPolynomial_ne_zero hazero) b.toPolynomial
  have hgcd := h.common_ne_zero (toPolynomial_ne_zero hazero)
  have hprime := isRelPrime_laurent_iff (Q := b.toPolynomial) (ha.coeff_zero_ne_zero hazero)
    a.first b.first
  rw [← EuclideanDomain.gcd_isUnit_iff, Polynomial.isUnit_iff_degree_eq_zero,
    degree_eq_natDegree hgcd] at hprime
  simp only [← isUnit_laurent_iff]
  rw [← Nat.cast_eq_zero (R := WithBot ℕ), ← hprime]
  rfl

/-- For Laurent polynomials other than zero the test breaks off when a highest exponent is negative.
Otherwise it compares the degree of the greatest common divisor of the coefficients with the smaller
one of the first exponents, and is right when that one is zero. -/
theorem isCoprime_laurent (hk : kernels.RanksExactly) (ha : a.IsLaurent) (hb : b.IsLaurent)
    (hazero : a.isZero = false) (hbzero : b.isZero = false) :
    (a.degree < 0 ∨ b.degree < 0 →
      isCoprime kernels a b = .error (.negativeWidth (showWidths b.degree a.degree))) ∧
    (0 ≤ a.degree → 0 ≤ b.degree → ∃ answer, isCoprime kernels a b = .ok answer ∧
      (answer = true ↔ (EuclideanDomain.gcd a.toPolynomial b.toPolynomial).natDegree +
        min a.first b.first ≤ 0) ∧
      (min a.first b.first = 0 → (answer = true ↔
        ∀ D : K[T;T⁻¹], D ∣ a.toLaurentPolynomial → D ∣ b.toLaurentPolynomial →
          ∃ (t : K) (k : ℤ), t ≠ 0 ∧ D = LaurentPolynomial.C t * T k))) := by
  refine ⟨isCoprime_of_degree_neg hazero hbzero, fun hadegree hbdegree => ?_⟩
  obtain ⟨answer, hok, hanswer⟩ :=
    isCoprime_of_degree_nonneg hk ha hb hazero hbzero hadegree hbdegree
  refine ⟨answer, hok, hanswer, fun hfirst => ?_⟩
  rw [hanswer, hfirst, ha.common_divisors_iff hazero]
  omega

/-- The polynomials `1 + z` and `z + z ^ 2` are not coprime. -/
theorem isCoprime_laurent_shifted :
    (exactKernels ℂ).RanksExactly ∧
      isCoprime (exactKernels ℂ) (.laurent 0 #[1, 1] "z") (.laurent 1 #[1, 1] "z") = .ok false := by
  have hone : (#[(1 : ℂ), 1]).getD 0 0 ≠ 0 := one_ne_zero
  obtain ⟨ha, hazero, hadegree⟩ := Poly.isLaurent_laurent hone hone 0 "z"
  obtain ⟨hb, hbzero, hbdegree⟩ := Poly.isLaurent_laurent hone hone 1 "z"
  obtain ⟨answer, hok, -, hanswer⟩ :=
    (isCoprime_laurent exactKernels_ranksExactly ha hb hazero hbzero).2
      (by rw [hadegree]; simp) (by rw [hbdegree]; simp)
  have hfalse : ¬answer = true := by
    intro htrue
    have hdvd : (Poly.laurent 0 #[(1 : ℂ), 1] "z").toLaurentPolynomial ∣
        (Poly.laurent 1 #[(1 : ℂ), 1] "z").toLaurentPolynomial := by
      rw [Poly.toLaurentPolynomial, Poly.first_laurent, LaurentPolynomial.T_zero, one_mul]
      exact dvd_mul_left _ _
    obtain ⟨t, k, -, hunit⟩ := (hanswer rfl).mp htrue _ dvd_rfl hdvd
    have hends := ha.first_eq_last hazero hunit
    simp [Poly.last] at hends
  rw [Bool.not_eq_true] at hfalse
  exact ⟨exactKernels_ranksExactly, by rw [hok, hfalse]⟩

/-- The test calls `1 / z + 1` coprime to itself, and breaks off for the units `1 / z` and one. -/
theorem isCoprime_laurent_negative :
    isCoprime (exactKernels ℂ) (.laurent (-1) #[1, 1] "z") (.laurent (-1) #[1, 1] "z") = .ok true ∧
      (¬∀ D : ℂ[T;T⁻¹], D ∣ (Poly.laurent (-1) #[(1 : ℂ), 1] "z").toLaurentPolynomial →
        D ∣ (Poly.laurent (-1) #[(1 : ℂ), 1] "z").toLaurentPolynomial →
        ∃ (t : ℂ) (k : ℤ), t ≠ 0 ∧ D = LaurentPolynomial.C t * T k) ∧
      ¬∃ answer, isCoprime (exactKernels ℂ) (.laurent (-1) #[1] "z") (.laurent 0 #[1] "z") =
        .ok answer := by
  have hone : (#[(1 : ℂ), 1]).getD 0 0 ≠ 0 := one_ne_zero
  have hsingle : (#[(1 : ℂ)]).getD 0 0 ≠ 0 := one_ne_zero
  obtain ⟨ha, hazero, hadegree⟩ := Poly.isLaurent_laurent hone hone (-1) "z"
  have hwidth : (Poly.laurent (-1) #[(1 : ℂ), 1] "z").toPolynomial.natDegree = 1 := by
    have hends := ha.natDegree_eq
    simp only [Poly.last, Poly.first_laurent, Poly.coef_laurent] at hends
    simpa using hends
  refine ⟨?_, ?_, ?_⟩
  · obtain ⟨answer, hok, hanswer⟩ := isCoprime_of_degree_nonneg exactKernels_ranksExactly ha ha
      hazero hazero (by rw [hadegree]; simp) (by rw [hadegree]; simp)
    have htrue : answer = true := by
      refine hanswer.mpr (le_trans (add_le_add_left (Nat.cast_le.mpr (natDegree_le_of_dvd
        (EuclideanDomain.gcd_dvd_left _ _) (Poly.toPolynomial_ne_zero hazero))) _) ?_)
      rw [hwidth]
      simp
    rw [hok, htrue]
  · intro hunits
    obtain ⟨t, k, -, hunit⟩ := hunits _ dvd_rfl dvd_rfl
    have hends := ha.first_eq_last hazero hunit
    simp [Poly.last] at hends
  · rintro ⟨answer, hok⟩
    obtain ⟨-, hpower, hnegative⟩ := Poly.isLaurent_laurent hsingle hsingle (-1) "z"
    obtain ⟨-, hunit, -⟩ := Poly.isLaurent_laurent hsingle hsingle 0 "z"
    rw [isCoprime_of_degree_neg hpower hunit (Or.inl (by rw [hnegative]; simp))] at hok
    cases hok

end Answer

end PolynomialEquations
