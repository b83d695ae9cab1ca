import PolynomialEquations.Equation.Division
import PolynomialEquations.Proofs.Journal
import PolynomialEquations.Proofs.Matrix.LeastSquares
import PolynomialEquations.Proofs.Matrix.Toeplitz
import PolynomialEquations.Proofs.Poly.Norm

/-!
# Exact division is least squares

The leading coefficient of the divisor keeps the columns of its banded matrix apart, and no column
is skipped and no pivot rejected as long as it is not negligible. The quotient computed is then the
polynomial whose product with the divisor comes closest to the dividend, and the part of the
transformed dividend behind the columns is as long as what is left of the dividend.
-/

namespace PolynomialEquations

open Polynomial

variable {K : Type} [RCLike K] {a b : Poly K} {w : ℕ}

section System

/-- The leading coefficient of the divisor is not negligible for quotients with `w`
coefficients. -/
def LeadsBy (a : Poly K) (w : ℕ) : Prop :=
  1e-12 * w * euclideanNorm a.coef < ‖a.toPolynomial.leadingCoeff‖

/-- The dividend as the factorisation of the banded matrix transforms it. -/
noncomputable def transformedDividend (a b : Poly K) (w : ℕ) : Array K :=
  ((householderQR (R := ℝ) (toeplitz a w) .complete).q.adjoint (R := ℝ)).mulVec b.coef

/-- The distance from `A u` to the dividend is the 2-norm of what the product leaves of it. -/
theorem residualNorm_toeplitz (hb : b.coef.size = (toeplitz a w).rows) {u : Array K}
    (hu : u.size = w) : residualNorm (toeplitz a w) b.coef u =
      coefficientNorm (a.toPolynomial * vectorPolynomial u - b.toPolynomial) := by
  subst hu
  rw [residualNorm_eq_coefficientNorm hb, vectorPolynomial_mulVec_toeplitz]
  rfl

/-- A leading coefficient that is not negligible exceeds the tolerance for pivots. -/
theorem LeadsBy.pivot_lt (h : LeadsBy a w) :
    negligible ℝ * (√(toeplitz a w).cols * (toeplitz a w).frobeniusNorm) <
      ‖a.toPolynomial.leadingCoeff‖ := by
  rw [frobeniusNorm_toeplitz, cols_toeplitz, ← mul_assoc √(w : ℝ),
    Real.mul_self_sqrt (Nat.cast_nonneg w), ← mul_assoc]
  exact h

/-- A leading coefficient that is not negligible keeps every column. -/
theorem LeadsBy.factorProgress (h : LeadsBy a w) (ha : a.IsOrdinary) (hw : 0 < w) :
    FactorProgress (toeplitz a w) ‖a.toPolynomial.leadingCoeff‖
      (householderQR (R := ℝ) (toeplitz a w) .complete) w := by
  have hfrobenius : (0 : ℝ) ≤ (toeplitz a w).frobeniusNorm := euclideanNorm_nonneg _
  have hroot : 1 ≤ √((toeplitz a w).cols : ℝ) := by
    rw [Real.one_le_sqrt, cols_toeplitz]
    exact_mod_cast hw
  have htol : negligible ℝ * (toeplitz a w).frobeniusNorm < ‖a.toPolynomial.leadingCoeff‖ := by
    refine lt_of_le_of_lt ?_ h.pivot_lt
    exact mul_le_mul_of_nonneg_left (le_mul_of_one_le_left hfrobenius hroot) negligible_pos.le
  have hlead : 0 < ‖a.toPolynomial.leadingCoeff‖ :=
    (mul_nonneg negligible_pos.le hfrobenius).trans_lt htol
  exact householderQR_complete ((columnsApart_toeplitz a w).mono (norm_nonneg _) (le_max_right _ _))
    hlead htol (cols_le_rows_toeplitz ha w)

/-- The triangular system of a division is solved, and its solution is the only vector that comes
as close to the dividend as the part of the transformed dividend behind the columns is long. -/
theorem LeadsBy.exists_quotient (h : LeadsBy a w) (ha : a.IsOrdinary) (hw : 0 < w)
    (hb : b.coef.size = (toeplitz a w).rows) :
    let F := householderQR (R := ℝ) (toeplitz a w) .complete
    let y := transformedDividend a b w
    ∃ x, backSubstituteVector (R := ℝ) (F.r.topRows w) (y.extract 0 w) = .ok x ∧ x.size = w ∧
      coefficientNorm (a.toPolynomial * vectorPolynomial x - b.toPolynomial) =
        euclideanNorm (y.extract w y.size) ∧
      ∀ X : K[X], X.degree < (w : WithBot ℕ) →
        euclideanNorm (y.extract w y.size) ≤
          coefficientNorm (a.toPolynomial * X - b.toPolynomial) ∧
        (coefficientNorm (a.toPolynomial * X - b.toPolynomial) =
          euclideanNorm (y.extract w y.size) → X = vectorPolynomial x) := by
  intro F y
  obtain ⟨x, hok, hx, hclosest, hunique⟩ := (h.factorProgress ha hw).exists_closest
    Array.size_ofFn (cols_le_rows_toeplitz ha w) hw h.pivot_lt b.coef
  refine ⟨x, hok, hx, ?_, fun X hX => ?_⟩
  · rw [← residualNorm_toeplitz hb hx]
    exact hclosest
  · obtain ⟨u, hu, rfl⟩ := exists_vectorPolynomial_eq hX
    rw [← residualNorm_toeplitz hb hu]
    exact ⟨(hunique u hu).1, fun heq => congrArg vectorPolynomial ((hunique u hu).2 heq)⟩

end System

section Quotient

/-- The part of the transformed dividend that no multiple of the divisor reaches. -/
noncomputable def unreachedPart (a b : Poly K) (w : ℕ) : Array K :=
  (transformedDividend a b w).extract w (transformedDividend a b w).size

/-- A division between polynomials other than zero, the dividend having no lower degree, fixes the
degree of the quotient. -/
theorem exactQuotient_eq_quotientOfDegree (ha : a.IsOrdinary) (hb : b.IsOrdinary)
    (hazero : a.isZero = false) (hbzero : b.isZero = false) (hle : a.degree ≤ b.degree) (tol : ℝ) :
    exactQuotient a b tol =
      quotientOfDegree a b (b.toPolynomial.natDegree - a.toPolynomial.natDegree) tol := by
  rw [ha.degree_eq hazero, hb.degree_eq hbzero] at hle
  have hdegree : (b.degree - a.degree).toNat =
      b.toPolynomial.natDegree - a.toPolynomial.natDegree := by
    rw [ha.degree_eq hazero, hb.degree_eq hbzero]
    omega
  have hnonneg : ¬b.degree - a.degree < 0 := by
    rw [ha.degree_eq hazero, hb.degree_eq hbzero]
    omega
  rw [← hdegree, exactQuotient, if_neg (by simp [hazero]), if_neg (by simp [hbzero])]
  exact if_neg hnonneg

/-- What a division finds: the polynomial whose product comes closest to the dividend, given out
when the unreached part of the dividend has no large entry. -/
theorem LeadsBy.exists_quotientOfDegree {dx : ℕ} (h : LeadsBy a (dx + 1)) (ha : a.IsOrdinary)
    (hb : b.coef.size = (toeplitz a (dx + 1)).rows) (tol : ℝ) :
    ∃ x : Poly K, x.IsOrdinary ∧ x.toPolynomial.degree < ((dx + 1 : ℕ) : WithBot ℕ) ∧
      coefficientNorm (a.toPolynomial * x.toPolynomial - b.toPolynomial) =
        euclideanNorm (unreachedPart a b (dx + 1)) ∧
      (∀ X : K[X], X.degree < ((dx + 1 : ℕ) : WithBot ℕ) →
        euclideanNorm (unreachedPart a b (dx + 1)) ≤
          coefficientNorm (a.toPolynomial * X - b.toPolynomial) ∧
        (coefficientNorm (a.toPolynomial * X - b.toPolynomial) =
          euclideanNorm (unreachedPart a b (dx + 1)) → X = x.toPolynomial)) ∧
      (quotientOfDegree a b dx tol).outcome =
        .ok (if tol ≤ maximumNorm (unreachedPart a b (dx + 1)) then none else some x) := by
  obtain ⟨x, hok, hsize, hclosest, hunique⟩ := h.exists_quotient ha dx.succ_pos hb
  have hpolynomial : (Poly.ofCoef x a.symbol).toPolynomial = vectorPolynomial x :=
    Poly.toPolynomial_ofCoef x a.symbol
  refine ⟨Poly.ofCoef x a.symbol, Poly.isOrdinary_ofCoef x a.symbol, ?_, ?_, ?_, ?_⟩
  · rw [hpolynomial]
    exact degree_vectorPolynomial_lt hsize.le
  · rw [hpolynomial]
    exact hclosest
  · rw [hpolynomial]
    exact hunique
  · have hresidual : maximumNorm (unreachedPart a b (dx + 1)) =
        tailNorm (transformedDividend a b (dx + 1)) (dx + 1) := rfl
    rw [hresidual, quotientOfDegree, if_neg (not_not_intro hb.symm)]
    by_cases htol : tol ≤ tailNorm (transformedDividend a b (dx + 1)) (dx + 1)
    · rw [if_pos htol]
      exact (congrArg Traced.outcome (if_pos htol)).trans (Traced.outcome_note_bind _ _)
    · rw [if_neg htol]
      exact (congrArg Traced.outcome (if_neg htol)).trans (Traced.outcome_ofExcept_bind hok _)

/-- The unreached part has one entry for every exponent below the degree of the divisor. -/
theorem LeadsBy.size_unreachedPart (h : LeadsBy a w) (ha : a.IsOrdinary) (hw : 0 < w)
    (b : Poly K) : (unreachedPart a b w).size = a.toPolynomial.natDegree := by
  have hsize : (transformedDividend a b w).size = (toeplitz a w).rows :=
    (Mat.size_mulVec _ _).trans (h.factorProgress ha hw).cols_q
  rw [unreachedPart, Array.size_extract, hsize, rows_toeplitz, ha.size_coef]
  omega

/-- A division by a polynomial whose leading coefficient is not negligible, with the degrees that
fix the width of the system. -/
theorem LeadsBy.exists_exactQuotient (h : LeadsBy a w) (ha : a.IsOrdinary) (hb : b.IsOrdinary)
    (hazero : a.isZero = false) (hbzero : b.isZero = false) (hle : a.degree ≤ b.degree)
    (hw : (w : ℤ) = b.degree - a.degree + 1) (tol : ℝ) :
    ∃ x : Poly K, x.IsOrdinary ∧ x.toPolynomial.degree < (w : WithBot ℕ) ∧
      coefficientNorm (a.toPolynomial * x.toPolynomial - b.toPolynomial) =
        euclideanNorm (unreachedPart a b w) ∧
      (∀ X : K[X], X.degree < (w : WithBot ℕ) →
        euclideanNorm (unreachedPart a b w) ≤
          coefficientNorm (a.toPolynomial * X - b.toPolynomial) ∧
        (coefficientNorm (a.toPolynomial * X - b.toPolynomial) =
          euclideanNorm (unreachedPart a b w) → X = x.toPolynomial)) ∧
      (exactQuotient a b tol).outcome =
        .ok (if tol ≤ maximumNorm (unreachedPart a b w) then none else some x) := by
  rw [exactQuotient_eq_quotientOfDegree ha hb hazero hbzero hle]
  rw [ha.degree_eq hazero, hb.degree_eq hbzero] at hle hw
  obtain rfl : w = b.toPolynomial.natDegree - a.toPolynomial.natDegree + 1 := by omega
  refine h.exists_quotientOfDegree ha ?_ tol
  rw [rows_toeplitz, ha.size_coef, hb.size_coef]
  omega

/-- Every polynomial of degree less than `w` leaves at least the unreached part of the dividend, and
the polynomial computed leaves no more; the tolerance bounds the unreached part or is bounded by
it. -/
theorem LeadsBy.exactQuotient_closest (h : LeadsBy a w) (ha : a.IsOrdinary) (hb : b.IsOrdinary)
    (hazero : a.isZero = false) (hbzero : b.isZero = false) (hle : a.degree ≤ b.degree)
    (hw : (w : ℤ) = b.degree - a.degree + 1) (tol : ℝ) :
    ∃ ρ, IsLeast {r | ∃ X : K[X], X.degree < (w : WithBot ℕ) ∧
        coefficientNorm (a.toPolynomial * X - b.toPolynomial) = r} ρ ∧
      ∃ found, (exactQuotient a b tol).outcome = .ok found ∧
        (∀ x, found = some x → x.IsOrdinary ∧ x.toPolynomial.degree < (w : WithBot ℕ) ∧
          coefficientNorm (a.toPolynomial * x.toPolynomial - b.toPolynomial) = ρ ∧
          (∀ X : K[X], X.degree < (w : WithBot ℕ) →
            coefficientNorm (a.toPolynomial * X - b.toPolynomial) = ρ → X = x.toPolynomial) ∧
          ρ ≤ √a.degree * tol) ∧
        (found = none → tol ≤ ρ) := by
  obtain ⟨x, hx, hdegree, hclosest, hleast, houtcome⟩ :=
    h.exists_exactQuotient ha hb hazero hbzero hle hw tol
  refine ⟨euclideanNorm (unreachedPart a b w), ⟨⟨x.toPolynomial, hdegree, hclosest⟩, ?_⟩, _,
    houtcome, fun z hz => ?_, fun hnone => ?_⟩
  · rintro _ ⟨X, hX, rfl⟩
    exact (hleast X hX).1
  · obtain ⟨hsmall, hxz⟩ := Option.ite_none_left_eq_some.mp hz
    obtain rfl := Option.some.inj hxz
    refine ⟨hx, hdegree, hclosest, fun X hX => (hleast X hX).2, ?_⟩
    have hsize := h.size_unreachedPart ha (by omega) b
    have hnorm := euclideanNorm_le_maximumNorm (unreachedPart a b w)
    rw [hsize] at hnorm
    rw [ha.degree_eq hazero, Int.cast_natCast]
    exact hnorm.trans (mul_le_mul_of_nonneg_left (not_le.mp hsmall).le (Real.sqrt_nonneg _))
  · have hlarge : tol ≤ maximumNorm (unreachedPart a b w) := by
      by_contra hsmall
      rw [if_neg hsmall] at hnone
      exact Option.some_ne_none x hnone
    exact hlarge.trans (maximumNorm_le_euclideanNorm _)

/-- A multiple of the divisor is divided exactly. -/
theorem LeadsBy.exactQuotient_mul (h : LeadsBy a w) (ha : a.IsOrdinary) (hazero : a.isZero = false)
    {x : Poly K} (hx : x.IsOrdinary) (hxzero : x.isZero = false) (hw : (w : ℤ) = x.degree + 1)
    {tol : ℝ} (htol : 0 < tol) :
    ∃ z, (exactQuotient a (a * x) tol).outcome = .ok (some z) ∧ z.IsOrdinary ∧
      z.coef = x.coef := by
  have hX := Poly.toPolynomial_ne_zero hxzero
  have hA := Poly.toPolynomial_ne_zero hazero
  have hb := Poly.isOrdinary_mul ha.variant_eq hx.variant_eq
  have hB := Poly.toPolynomial_mul ha.variant_eq hx.variant_eq
  have hbzero : (a * x).isZero = false :=
    Poly.isZero_eq_false (by rw [hB]; exact mul_ne_zero hA hX)
  have hdegree : (a * x).degree = a.degree + x.degree := by
    rw [hb.degree_eq hbzero, hB, natDegree_mul hA hX, ha.degree_eq hazero, hx.degree_eq hxzero,
      Nat.cast_add]
  have hle : a.degree ≤ (a * x).degree := by
    rw [hdegree, hx.degree_eq hxzero]
    omega
  obtain ⟨z, hz, -, -, hleast, houtcome⟩ :=
    h.exists_exactQuotient ha hb hazero hbzero hle (by omega) tol
  have hfits : x.toPolynomial.degree < (w : WithBot ℕ) := by
    rw [← hx.degree_lt_iff]
    omega
  obtain ⟨hclose, hunique⟩ := hleast x.toPolynomial hfits
  rw [hB, sub_self, coefficientNorm_zero] at hclose hunique
  have hunreached := le_antisymm hclose (euclideanNorm_nonneg _)
  have hsmall : ¬tol ≤ maximumNorm (unreachedPart a (a * x) w) := by
    rw [not_le]
    exact ((maximumNorm_le_euclideanNorm _).trans hclose).trans_lt htol
  rw [if_neg hsmall] at houtcome
  exact ⟨z, houtcome, hz, hz.coef_eq hx (hunique hunreached.symm).symm⟩

/-- A polynomial of lower degree than the divisor has no quotient, unless it is zero. -/
theorem exactQuotient_of_degree_lt (hazero : a.isZero = false) (hbzero : b.isZero = false)
    (hlt : b.degree < a.degree) (tol : ℝ) : (exactQuotient a b tol).outcome = .ok none := by
  rw [exactQuotient, if_neg (by simp [hazero]), if_neg (by simp [hbzero])]
  exact (congrArg Traced.outcome (if_pos (by omega))).trans (Traced.outcome_note_bind _ _)

/-- When the leading coefficient of `a` is not negligible and the tolerance is positive, dividing a
polynomial `b` of no lower degree cannot fail: a quotient given out is the only one whose product
with `a` comes closest to `b`, no farther than the tolerance allows, and without a quotient no
product comes closer than the tolerance. So a multiple of `a` is divided exactly. A polynomial of
lower degree other than zero has no quotient. -/
theorem exactQuotient_leastSquares (ha : a.IsOrdinary) (hazero : a.isZero = false) (tol : ℝ) :
    (∀ b : Poly K, b.IsOrdinary → b.isZero = false → a.degree ≤ b.degree →
      ∀ w : ℕ, (w : ℤ) = b.degree - a.degree + 1 → LeadsBy a w →
        ∃ ρ, IsLeast {r | ∃ X : K[X], X.degree < (w : WithBot ℕ) ∧
            coefficientNorm (a.toPolynomial * X - b.toPolynomial) = r} ρ ∧
          ∃ found, (exactQuotient a b tol).outcome = .ok found ∧
            (∀ x, found = some x → x.IsOrdinary ∧ x.toPolynomial.degree < (w : WithBot ℕ) ∧
              coefficientNorm (a.toPolynomial * x.toPolynomial - b.toPolynomial) = ρ ∧
              (∀ X : K[X], X.degree < (w : WithBot ℕ) →
                coefficientNorm (a.toPolynomial * X - b.toPolynomial) = ρ →
                  X = x.toPolynomial) ∧
              ρ ≤ √a.degree * tol) ∧
            (found = none → tol ≤ ρ)) ∧
    (0 < tol → ∀ x : Poly K, x.IsOrdinary → x.isZero = false →
      ∀ w : ℕ, (w : ℤ) = x.degree + 1 → LeadsBy a w →
        ∃ z, (exactQuotient a (a * x) tol).outcome = .ok (some z) ∧ z.IsOrdinary ∧
          z.coef = x.coef) ∧
    (∀ b : Poly K, b.isZero = false → b.degree < a.degree →
      (exactQuotient a b tol).outcome = .ok none) := by
  exact ⟨fun b hb hbzero hle w hw hlead =>
      hlead.exactQuotient_closest ha hb hazero hbzero hle hw tol,
    fun htol x hx hxzero w hw hlead => hlead.exactQuotient_mul ha hazero hx hxzero hw htol,
    fun b hbzero hlt => exactQuotient_of_degree_lt hazero hbzero hlt tol⟩

/-- The square of `1 + s` is divided by `1 + s`. -/
theorem exactQuotient_leastSquares_square :
    (Poly.ofCoef #[(1 : ℝ), 1] "s").isZero = false ∧ LeadsBy (Poly.ofCoef #[(1 : ℝ), 1] "s") 2 ∧
      ∃ z, (exactQuotient (Poly.ofCoef #[(1 : ℝ), 1] "s")
          (Poly.ofCoef #[1, 1] "s" * Poly.ofCoef #[1, 1] "s") (1e-8 : ℝ)).outcome =
            .ok (some z) ∧ z.IsOrdinary ∧ z.coef = (Poly.ofCoef #[(1 : ℝ), 1] "s").coef := by
  have hazero := Poly.isZero_ofCoef (c := #[(1 : ℝ), 1]) (i := 0) (by simp) "s"
  have ha := Poly.isOrdinary_ofCoef #[(1 : ℝ), 1] "s"
  have hpolynomial : (Poly.ofCoef #[(1 : ℝ), 1] "s").toPolynomial = X + C 1 := by
    ext n
    rcases n with _ | _ | n <;> simp [coeff_X, coeff_one]
  have hdegree : (Poly.ofCoef #[(1 : ℝ), 1] "s").degree = 1 := by
    rw [ha.degree_eq hazero, hpolynomial, natDegree_X_add_C, Nat.cast_one]
  have hlead : LeadsBy (Poly.ofCoef #[(1 : ℝ), 1] "s") 2 := by
    have hnorm : euclideanNorm (Poly.ofCoef #[(1 : ℝ), 1] "s").coef = √2 := by
      rw [← coefficientNorm_vectorPolynomial]
      change coefficientNorm (Poly.ofCoef #[(1 : ℝ), 1] "s").toPolynomial = √2
      rw [Poly.toPolynomial_ofCoef, coefficientNorm_vectorPolynomial, euclideanNorm_eq_sqrt]
      norm_num [Finset.sum_range_succ]
    have hroot : √(2 : ℝ) ≤ 2 := by
      rw [Real.sqrt_le_iff]
      norm_num
    rw [LeadsBy, hpolynomial, leadingCoeff_X_add_C, hnorm, norm_one]
    norm_num
    linarith
  exact ⟨hazero, hlead, (exactQuotient_leastSquares ha hazero 1e-8).2.1 (by norm_num) _ ha hazero 2
    (by rw [hdegree]; norm_num) hlead⟩

end Quotient

end PolynomialEquations
