import PolynomialEquations.Analysis.Coprime
import PolynomialEquations.Proofs.Kernel.Existence
import PolynomialEquations.Proofs.Matrix.SylvesterKernel

/-!
# The rank of the Sylvester matrix decides coprimality

The rank of the square Sylvester matrix falls short of its size by the degree of the greatest common
divisor, so two polynomials other than zero are coprime exactly when the matrix has full rank. The
common divisors of a polynomial and zero are the divisors of the polynomial, which is what the
answer for a zero operand looks at.
-/

namespace PolynomialEquations

open Polynomial

section Divisors

variable {F : Type} [Field F]

/-- A polynomial is a unit exactly when it is a number other than zero. -/
theorem isUnit_iff_exists_C {D : F[X]} : IsUnit D ↔ ∃ t : F, t ≠ 0 ∧ D = C t := by
  simp only [Polynomial.isUnit_iff, isUnit_iff_ne_zero, eq_comm]

end Divisors

section Answer

variable {K : Type} [RCLike K] {kernels : LinearKernels K} {a b : Poly K}

/-- The degree of an ordinary value is zero exactly when it is a number other than zero. -/
theorem Poly.IsOrdinary.degree_eq_zero_iff (ha : a.IsOrdinary) :
    a.degree = 0 ↔ IsUnit a.toPolynomial := by
  by_cases hazero : a.isZero = true
  · rw [Poly.degree_of_isZero hazero, (Poly.isZero_iff a).mp hazero]
    exact iff_of_false (by decide) not_isUnit_zero
  · rw [Bool.not_eq_true] at hazero
    rw [ha.degree_eq hazero, Polynomial.isUnit_iff_degree_eq_zero,
      degree_eq_natDegree (Poly.toPolynomial_ne_zero hazero)]
    norm_cast

/-- When an operand is zero the answer is whether the other one is a number other than zero. -/
theorem isCoprime_of_isZero (ha : a.IsOrdinary) (hb : b.IsOrdinary)
    (hzero : a.isZero = true ∨ b.isZero = true) :
    ∃ answer, isCoprime kernels a b = .ok answer ∧
      (answer = true ↔ IsRelPrime a.toPolynomial b.toPolynomial) := by
  refine ⟨(a.degree == 0 && b.isZero) || (b.degree == 0 && a.isZero), ?_, ?_⟩
  · rw [isCoprime, if_pos (by rwa [Bool.or_eq_true])]
    rfl
  · simp only [Bool.or_eq_true, Bool.and_eq_true, beq_iff_eq, ha.degree_eq_zero_iff,
      hb.degree_eq_zero_iff]
    rcases hzero with hazero | hbzero
    · have hA := (Poly.isZero_iff a).mp hazero
      rw [hA, isRelPrime_zero_left]
      simp [hazero]
    · have hB := (Poly.isZero_iff b).mp hbzero
      rw [hB, isRelPrime_zero_right]
      simp [hbzero]

/-- For operands other than zero the answer is whether the rank of the Sylvester matrix is the sum
of the degrees. -/
theorem isCoprime_eq_of_resultantMatrix (hk : kernels.RanksExactly) (hazero : a.isZero = false)
    (hbzero : b.isZero = false) {S : Mat K} (hmatrix : resultantMatrix a b = .ok S) :
    isCoprime kernels a b = .ok ((S.rank : ℤ) == a.degree + b.degree) := by
  rw [isCoprime, if_neg (by simp [hazero, hbzero]), hmatrix]
  change (kernels.rankOf S >>= _) = _
  rw [hk.rankOf_eq]
  rfl

/-- Ordinary operands other than zero are coprime exactly when the Sylvester matrix has full
rank. -/
theorem isCoprime_of_ne_zero (hk : kernels.RanksExactly) (ha : a.IsOrdinary) (hb : b.IsOrdinary)
    (hazero : a.isZero = false) (hbzero : b.isZero = false) :
    ∃ answer, isCoprime kernels a b = .ok answer ∧
      (answer = true ↔ IsRelPrime a.toPolynomial b.toPolynomial) := by
  let S := sylvester a b b.toPolynomial.natDegree a.toPolynomial.natDegree
  have hA := Poly.toPolynomial_ne_zero hazero
  have hB := Poly.toPolynomial_ne_zero hbzero
  have hmatrix : resultantMatrix a b = .ok S := resultantMatrix_eq ha hb hazero hbzero
  refine ⟨_, isCoprime_eq_of_resultantMatrix hk hazero hbzero hmatrix, ?_⟩
  obtain ⟨A', B', h⟩ := exists_cofactors hA b.toPolynomial
  have hrank : S.rank + (EuclideanDomain.gcd a.toPolynomial b.toPolynomial).natDegree =
      a.toPolynomial.natDegree + b.toPolynomial.natDegree := h.rank_add_natDegree hA hB
  have hgcd := h.common_ne_zero hA
  rw [beq_iff_eq, ha.degree_eq hazero, hb.degree_eq hbzero, isRelPrime_iff_isCoprime,
    ← EuclideanDomain.gcd_isUnit_iff, Polynomial.isUnit_iff_degree_eq_zero,
    degree_eq_natDegree hgcd]
  norm_cast
  omega

/-- With exact ranks the answer is whether all common divisors of `a` and `b` are numbers other than
zero. In particular zero is coprime to the numbers other than zero, and to nothing else. -/
theorem isCoprime_common_divisors (hk : kernels.RanksExactly) (ha : a.IsOrdinary)
    (hb : b.IsOrdinary) :
    ∃ answer, isCoprime kernels a b = .ok answer ∧
      (answer = true ↔ ∀ D : K[X], D ∣ a.toPolynomial → D ∣ b.toPolynomial →
        ∃ t : K, t ≠ 0 ∧ D = C t) ∧
      (b.isZero = true → (answer = true ↔ ∃ t : K, t ≠ 0 ∧ a.toPolynomial = C t)) ∧
      (a.isZero = true → (answer = true ↔ ∃ t : K, t ≠ 0 ∧ b.toPolynomial = C t)) := by
  obtain ⟨answer, hok, hanswer⟩ : ∃ answer, isCoprime kernels a b = .ok answer ∧
      (answer = true ↔ IsRelPrime a.toPolynomial b.toPolynomial) := by
    cases hazero : a.isZero with
    | true => exact isCoprime_of_isZero ha hb (Or.inl hazero)
    | false =>
      cases hbzero : b.isZero with
      | true => exact isCoprime_of_isZero ha hb (Or.inr hbzero)
      | false => exact isCoprime_of_ne_zero hk ha hb hazero hbzero
  refine ⟨answer, hok, ?_, fun hbzero => ?_, fun hazero => ?_⟩
  · rw [hanswer]
    simp only [IsRelPrime, isUnit_iff_exists_C]
  · rw [hanswer, (Poly.isZero_iff b).mp hbzero, isRelPrime_zero_right, isUnit_iff_exists_C]
  · rw [hanswer, (Poly.isZero_iff a).mp hazero, isRelPrime_zero_left, isUnit_iff_exists_C]

/-- The polynomials `(1 + s) (2 + s)` and `(1 + s) (3 + s)` are not coprime. -/
theorem isCoprime_common_divisors_shared_root :
    (exactKernels ℂ).RanksExactly ∧
      isCoprime (exactKernels ℂ) (Poly.ofCoef #[2, 3, 1] "s") (Poly.ofCoef #[3, 4, 1] "s") =
        .ok false := by
  obtain ⟨answer, hok, hanswer, -, -⟩ := isCoprime_common_divisors exactKernels_ranksExactly
    (Poly.isOrdinary_ofCoef #[(2 : ℂ), 3, 1] "s") (Poly.isOrdinary_ofCoef #[(3 : ℂ), 4, 1] "s")
  have hleft : X + C 1 ∣ (Poly.ofCoef #[(2 : ℂ), 3, 1] "s").toPolynomial := by
    refine ⟨X + C 2, ?_⟩
    ext n
    rcases n with _ | _ | _ | n <;> norm_num [mul_add, add_mul, coeff_X]
  have hright : X + C 1 ∣ (Poly.ofCoef #[(3 : ℂ), 4, 1] "s").toPolynomial := by
    refine ⟨X + C 3, ?_⟩
    ext n
    rcases n with _ | _ | _ | n <;> norm_num [mul_add, add_mul, coeff_X]
  have hfalse : ¬answer = true := by
    intro htrue
    obtain ⟨t, -, ht⟩ := hanswer.mp htrue _ hleft hright
    have hdegree := congrArg natDegree ht
    rw [natDegree_X_add_C, natDegree_C] at hdegree
    omega
  rw [Bool.not_eq_true] at hfalse
  exact ⟨exactKernels_ranksExactly, by rw [hok, hfalse]⟩

end Answer

end PolynomialEquations
