import PolynomialEquations.Proofs.Matrix.Sylvester
import PolynomialEquations.Proofs.Poly.Evaluation
import PolynomialEquations.Proofs.Poly.Mirror
import Mathlib.RingTheory.Polynomial.Resultant.Basic

/-!
# The determinant of the square Sylvester matrix

The square Sylvester matrix of `a` and `b` holds shifted copies of `a`, one for each degree of `b`,
and then shifted copies of `b`. In this order its determinant is the resultant of `b` and `a`: up to
a power of the leading coefficient of `b` it is the product of the values of `a` at the roots of
`b`. Exchanging the two polynomials changes the sign when both degrees are odd.
-/

namespace PolynomialEquations

open Polynomial

section Shape

variable {K : Type} [CommRing K]

/-- The determinant of a square matrix. -/
noncomputable def Mat.det (A : Mat K) : K := (A.toMatrix A.rows A.rows).det

/-- The determinant of a matrix whose number of rows is known. -/
theorem Mat.det_eq {A : Mat K} {n : ℕ} (h : A.rows = n) : A.det = (A.toMatrix n n).det := by
  subst h
  rfl

variable [BEq K] [LawfulBEq K] {a b : Poly K}

/-- The square Sylvester matrix has as many rows as both degrees together, also when a polynomial is
constant and the block of the other one has no columns. -/
theorem rows_sylvester_natDegree (ha : a.IsOrdinary) (hb : b.IsOrdinary) :
    (sylvester a b b.toPolynomial.natDegree a.toPolynomial.natDegree).rows =
      b.toPolynomial.natDegree + a.toPolynomial.natDegree := by
  rw [rows_sylvester, rows_sylvesterBlock, rows_sylvesterBlock, ha.size_coef, hb.size_coef]
  split <;> split <;> omega

omit [BEq K] [LawfulBEq K] in
/-- Read on the indices of its shape the stored matrix is the Sylvester matrix of the two
polynomials in the other order. -/
theorem toMatrix_sylvester {m n : ℕ} (ha : a.toPolynomial.natDegree ≤ n)
    (hb : b.toPolynomial.natDegree ≤ m) :
    (sylvester a b m n).toMatrix (m + n) (m + n) =
      Polynomial.sylvester b.toPolynomial a.toPolynomial m n := by
  have hband : ∀ {P : K[X]} {d : ℕ}, P.natDegree ≤ d → ∀ i j : ℕ,
      (if j ≤ i then P.coeff (i - j) else 0) =
        if i ∈ Set.Icc j (j + d) then P.coeff (i - j) else 0 := by
    intro P d hP i j
    by_cases hi : i ≤ j + d
    · exact if_congr (by rw [Set.mem_Icc, and_iff_left hi]) rfl rfl
    · rw [if_neg (fun h => hi (Set.mem_Icc.mp h).2), coeff_eq_zero_of_natDegree_lt (by omega),
        ite_self]
  ext i j
  rw [Mat.toMatrix_apply, Polynomial.sylvester, Matrix.of_apply]
  refine Fin.addCases (fun k => ?_) (fun k => ?_) j
  · rw [Fin.addCases_left, Fin.val_castAdd, get_sylvester_left a b n k.isLt, hband ha]
  · rw [Fin.addCases_right, Fin.val_natAdd, get_sylvester_right a b m k.isLt, hband hb]

/-- The determinant of the square Sylvester matrix is the resultant of the two polynomials in the
other order. -/
theorem det_sylvester (ha : a.IsOrdinary) (hb : b.IsOrdinary) :
    (sylvester a b b.toPolynomial.natDegree a.toPolynomial.natDegree).det =
      resultant b.toPolynomial a.toPolynomial := by
  rw [Mat.det_eq (rows_sylvester_natDegree ha hb), toMatrix_sylvester le_rfl le_rfl]
  rfl

end Shape

section Roots

variable {K : Type} [Field K] [BEq K] [LawfulBEq K] {a b : Poly K}

/-- Over the complex numbers the resultant is a product of values at the roots. -/
theorem map_resultant_eq (φ : K →+* ℂ) (ha : a.IsOrdinary) (hb : b.IsOrdinary)
    (hazero : a.isZero = false) :
    φ (resultant b.toPolynomial a.toPolynomial) =
      φ (b.coeff b.degree) ^ a.degree.toNat *
        ((b.map φ).toPolynomial.roots.map fun β => (a.map φ).eval β).prod := by
  have hvariant : (a.map φ).variant = .ordinary := (Poly.variant_map φ a).trans ha.variant_eq
  have hproduct := resultant_eq_prod_eval (b.toPolynomial.map φ) (a.toPolynomial.map φ)
    a.toPolynomial.natDegree natDegree_map_le (IsAlgClosed.splits _)
  rw [natDegree_map, resultant_map_map, leadingCoeff_map] at hproduct
  rw [hproduct, hb.coeff_degree, ha.degree_eq hazero, Int.toNat_natCast, Poly.toPolynomial_map]
  simp only [Poly.eval_eq_of_ordinary hvariant, Poly.toPolynomial_map]

/-- The square Sylvester matrix of two polynomials other than zero has as many rows and columns as
both degrees together, and its determinant is the resultant of `b` and `a`: a power of the leading
coefficient of `b` times the product of the values of `a` at the complex roots of `b`, each as often
as its multiplicity. Up to a sign the two polynomials may be exchanged, and the determinant of a
product is the product of the determinants. -/
theorem resultantMatrix_det (φ : K →+* ℂ) (ha : a.IsOrdinary) (hb : b.IsOrdinary)
    (hazero : a.isZero = false) (hbzero : b.isZero = false) :
    ∃ S, resultantMatrix a b = .ok S ∧
      (S.rows : ℤ) = a.degree + b.degree ∧ (S.cols : ℤ) = a.degree + b.degree ∧
      S.det = resultant b.toPolynomial a.toPolynomial ∧
      φ S.det = φ (b.coeff b.degree) ^ a.degree.toNat *
        ((b.map φ).toPolynomial.roots.map fun β => (a.map φ).eval β).prod ∧
      φ S.det = (-1) ^ (a.degree * b.degree).toNat * φ (a.coeff a.degree) ^ b.degree.toNat *
        ((a.map φ).toPolynomial.roots.map fun α => (b.map φ).eval α).prod ∧
      ∀ p : Poly K, p.IsOrdinary → p.isZero = false →
        ∃ T P, resultantMatrix p b = .ok T ∧ resultantMatrix (p * a) b = .ok P ∧
          P.det = T.det * S.det := by
  have hadegree := ha.degree_eq hazero
  have hbdegree := hb.degree_eq hbzero
  have hdet := det_sylvester ha hb
  refine ⟨_, resultantMatrix_eq ha hb hazero hbzero, ?_, ?_, hdet, ?_, ?_, fun p hp hpzero => ?_⟩
  · rw [rows_sylvester_natDegree ha hb, hadegree, hbdegree]
    push_cast
    ring
  · rw [cols_sylvester, hadegree, hbdegree]
    push_cast
    ring
  · rw [hdet, map_resultant_eq φ ha hb hazero]
  · have hexponent : (a.degree * b.degree).toNat =
        b.toPolynomial.natDegree * a.toPolynomial.natDegree := by
      rw [hadegree, hbdegree, ← Nat.cast_mul, Int.toNat_natCast, mul_comm]
    rw [hdet, resultant_comm, map_mul, map_pow, map_neg, map_one, map_resultant_eq φ hb ha hbzero,
      hexponent, mul_assoc]
  · have hmul := Poly.isOrdinary_mul hp.variant_eq ha.variant_eq
    have hproduct := Poly.toPolynomial_mul hp.variant_eq ha.variant_eq
    have hpne := Poly.toPolynomial_ne_zero hpzero
    have hane := Poly.toPolynomial_ne_zero hazero
    have hmulzero : (p * a).isZero = false := by
      refine Poly.isZero_eq_false ?_
      rw [hproduct]
      exact mul_ne_zero hpne hane
    refine ⟨_, _, resultantMatrix_eq hp hb hpzero hbzero,
      resultantMatrix_eq hmul hb hmulzero hbzero, ?_⟩
    rw [hdet, det_sylvester hp hb, det_sylvester hmul hb, hproduct, natDegree_mul hpne hane]
    exact resultant_mul_right _ _ _ _ le_rfl

/-- The square Sylvester matrix of `1 + 2 s + 3 s ^ 2` and `1 + 2 s` has three rows and the
determinant three: four times the value of the first polynomial at the root `-1 / 2` of the second
one. -/
theorem resultantMatrix_det_quadratic :
    (Poly.ofCoef #[(1 : ℂ), 2, 3] "s").IsOrdinary ∧ (Poly.ofCoef #[(1 : ℂ), 2] "s").IsOrdinary ∧
      (Poly.ofCoef #[(1 : ℂ), 2, 3] "s").isZero = false ∧
      (Poly.ofCoef #[(1 : ℂ), 2] "s").isZero = false ∧
      ∃ S, resultantMatrix (Poly.ofCoef #[(1 : ℂ), 2, 3] "s") (Poly.ofCoef #[(1 : ℂ), 2] "s") =
        .ok S ∧ S.rows = 3 ∧ S.cols = 3 ∧ S.det = 3 := by
  let a := Poly.ofCoef #[(1 : ℂ), 2, 3] "s"
  let b := Poly.ofCoef #[(1 : ℂ), 2] "s"
  have ha : a.IsOrdinary := Poly.isOrdinary_ofCoef _ _
  have hb : b.IsOrdinary := Poly.isOrdinary_ofCoef _ _
  have hazero : a.isZero = false := Poly.isZero_ofCoef (i := 0) one_ne_zero _
  have hbzero : b.isZero = false := Poly.isZero_ofCoef (i := 0) one_ne_zero _
  have hadegree : a.degree = 2 := Poly.degree_quadratic 1 2 three_ne_zero "s"
  have hbdegree : b.degree = 1 := Poly.degree_linear 1 two_ne_zero "s"
  have hA : a.toPolynomial = C 3 * X ^ 2 + C 2 * X + C 1 := Poly.toPolynomial_quadratic 1 2 3 "s"
  have hB : b.toPolynomial = C 2 * X + C 1 := Poly.toPolynomial_linear 1 2 "s"
  obtain ⟨S, hS, hrows, hcols, -, hdet, -⟩ :=
    resultantMatrix_det (RingHom.id ℂ) ha hb hazero hbzero
  have hvariant : (a.map (RingHom.id ℂ)).variant = .ordinary :=
    (Poly.variant_map _ a).trans ha.variant_eq
  have hexponent : a.degree.toNat = 2 := congrArg Int.toNat hadegree
  have hlead : (C (2 : ℂ) * X + C 1).leadingCoeff = 2 := leadingCoeff_linear two_ne_zero
  have hroots : (C (2 : ℂ) * X + C 1).roots = {-(2⁻¹ * 1)} := roots_C_mul_X_add_C 1 two_ne_zero
  refine ⟨ha, hb, hazero, hbzero, S, hS, by omega, by omega, ?_⟩
  simp only [Poly.eval_eq_of_ordinary hvariant, Poly.toPolynomial_map, map_id, RingHom.id_apply,
    hb.coeff_degree, hexponent, hB, hroots, hlead, hA] at hdet
  rw [hdet]
  norm_num

end Roots

end PolynomialEquations
