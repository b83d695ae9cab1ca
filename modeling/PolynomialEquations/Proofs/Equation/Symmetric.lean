import PolynomialEquations.Proofs.Equation.Bezout
import PolynomialEquations.Proofs.Kernel.LeastSquares
import PolynomialEquations.Proofs.Matrix.Symmetric
import PolynomialEquations.Proofs.Poly.Norm

/-!
# The symmetric equation

The least squares solution of the symmetric equation is the shortest of the real polynomials of one
degree that come closest to solving it. The mean of a solution of `ã x + a y = b + b̃` and its
conjugate solves the equation, so for a right side of large degree there is a solution of the degree
chosen whenever there is any. For a right side of low degree the degree chosen may be too small.
-/

namespace PolynomialEquations

open Polynomial

section Solutions

/-- The left side `ã x + a x̃` of the symmetric equation. -/
noncomputable def symmetricLeft (A X : ℝ[X]) : ℝ[X] := axisConjugate A * X + A * axisConjugate X

/-- Adding the conjugate of the unknown times the coefficient gives the left side. -/
theorem toPolynomial_symmetricLeft {a x : Poly ℝ} (ha : a.variant = .ordinary)
    (hx : x.variant = .ordinary) :
    (a.axisConj * x + a * x.axisConj).toPolynomial =
      symmetricLeft a.toPolynomial x.toPolynomial := by
  have ha' := (Poly.isOrdinary_axisConj ha).variant_eq
  have hx' := (Poly.isOrdinary_axisConj hx).variant_eq
  rw [Poly.toPolynomial_add (Poly.isOrdinary_mul ha' hx).variant_eq
      (Poly.isOrdinary_mul ha hx').variant_eq, Poly.toPolynomial_mul ha' hx,
    Poly.toPolynomial_mul ha hx', Poly.toPolynomial_axisConj ha, Poly.toPolynomial_axisConj hx]
  rfl

/-- A sum of a polynomial and its conjugate is its own conjugate. -/
theorem axisConjugate_right {b : Poly ℝ} (hb : b.variant = .ordinary) :
    axisConjugate (b + b.axisConj).toPolynomial = (b + b.axisConj).toPolynomial := by
  rw [Poly.toPolynomial_add_axisConj hb, map_add, axisConjugate_axisConjugate, add_comm]

/-- The mean of a solution of `ã x + a y = b` and the conjugate of `y` solves the symmetric equation
for a right side that is its own conjugate. -/
theorem symmetricLeft_mean {A B U V : ℝ[X]} (hB : axisConjugate B = B)
    (hsolves : axisConjugate A * U + A * V = B) :
    symmetricLeft A (C (1 / 2) * (U + axisConjugate V)) = B := by
  have hconj : A * axisConjugate U + axisConjugate A * axisConjugate V = B := by
    have h := congrArg axisConjugate hsolves
    rwa [map_add, map_mul, map_mul, axisConjugate_axisConjugate, hB] at h
  have hhalf : axisConjugate (C (1 / 2) : ℝ[X]) = C (1 / 2) := by
    rw [axisConjugate_real, C_comp]
  have hsum : (C (1 / 2) + C (1 / 2) : ℝ[X]) = 1 := by
    rw [← C_add, add_halves, C_1]
  rw [symmetricLeft, map_mul, map_add, axisConjugate_axisConjugate, hhalf]
  linear_combination C (1 / 2) * hsolves + C (1 / 2) * hconj + B * hsum

/-- Every common divisor of `a` and its conjugate divides the left side. -/
theorem gcd_dvd_symmetricLeft (A X : ℝ[X]) :
    EuclideanDomain.gcd A (axisConjugate A) ∣ symmetricLeft A X := by
  rw [symmetricLeft, add_comm]
  exact gcd_dvd_of_solution rfl

/-- When the degree of the right side is large enough, an equation that can be solved at all has a
solution of the degree that the right side leaves. -/
theorem exists_symmetric_solution {A B : ℝ[X]} {d : ℕ} (hA : A ≠ 0) (hB : axisConjugate B = B)
    (hdvd : EuclideanDomain.gcd A (axisConjugate A) ∣ B) (hd : B.natDegree = A.natDegree + d)
    (hlarge : 2 * A.natDegree ≤ B.natDegree + 1) :
    ∃ U : ℝ[X], U.natDegree ≤ d ∧ symmetricLeft A U = B := by
  have hdvd' : EuclideanDomain.gcd (axisConjugate A) A ∣ B :=
    (EuclideanDomain.dvd_gcd (EuclideanDomain.gcd_dvd_right _ _)
      (EuclideanDomain.gcd_dvd_left _ _)).trans hdvd
  have hdegree : B.degree < ((B.natDegree + 1 : ℕ) : WithBot ℕ) :=
    lt_of_le_of_lt degree_le_natDegree (by exact_mod_cast B.natDegree.lt_succ_self)
  obtain ⟨U, V, hsolves, hU, hV⟩ := exists_bounded_solution
    (axisConjugate_eq_zero_iff.not.mpr hA) hA hdvd' (m := B.natDegree + 1)
    (by rw [natDegree_axisConjugate]; omega) hdegree
  rw [natDegree_axisConjugate] at hU hV
  have hbound : ∀ {p : ℝ[X]} {m : ℕ}, m ≤ d + 1 → p.degree < (m : WithBot ℕ) →
      p.natDegree ≤ d := by
    intro p m hm hp
    refine natDegree_le_iff_coeff_eq_zero.mpr fun i hi => ?_
    exact (degree_lt_iff_coeff_zero p m).mp hp i (by omega)
  refine ⟨C (1 / 2) * (U + axisConjugate V), ?_, symmetricLeft_mean hB hsolves⟩
  refine (natDegree_C_mul_le _ _).trans (natDegree_add_le_of_degree_le ?_ ?_)
  · exact hbound (by omega) hU
  · rw [natDegree_axisConjugate]
    exact hbound (by omega) hV

end Solutions

section Fit

variable {kernels : LinearKernels ℝ} {a b : Poly ℝ} {d : ℕ}

/-- The polynomial `x` is the shortest of all polynomials of degree at most `d` whose left side
comes closest to `B`. -/
structure IsShortestFit (A B : ℝ[X]) (d : ℕ) (x : ℝ[X]) : Prop where
  /-- The degree is bounded. -/
  natDegree_le : x.natDegree ≤ d
  /-- No other polynomial comes closer. -/
  closest : ∀ U : ℝ[X], U.natDegree ≤ d →
    coefficientNorm (symmetricLeft A x - B) ≤ coefficientNorm (symmetricLeft A U - B)
  /-- No polynomial that comes as close is shorter. -/
  shortest : ∀ U : ℝ[X], U.natDegree ≤ d →
    coefficientNorm (symmetricLeft A U - B) = coefficientNorm (symmetricLeft A x - B) →
      coefficientNorm x ≤ coefficientNorm U
  /-- No other polynomial that comes as close is as short. -/
  unique : ∀ U : ℝ[X], U.natDegree ≤ d →
    coefficientNorm (symmetricLeft A U - B) = coefficientNorm (symmetricLeft A x - B) →
      coefficientNorm U = coefficientNorm x → U = x

/-- The closest polynomial solves the equation exactly when some polynomial within the bound of the
degree does. -/
theorem IsShortestFit.solves_iff {A B x : ℝ[X]} (h : IsShortestFit A B d x) :
    symmetricLeft A x = B ↔ ∃ U : ℝ[X], U.natDegree ≤ d ∧ symmetricLeft A U = B := by
  refine ⟨fun hx => ⟨x, h.natDegree_le, hx⟩, ?_⟩
  rintro ⟨U, hU, hsolves⟩
  have hle := h.closest U hU
  rw [hsolves, sub_self, coefficientNorm_zero] at hle
  have hzero := le_antisymm hle (coefficientNorm_nonneg _)
  rwa [coefficientNorm_eq_zero_iff, sub_eq_zero] at hzero

/-- The solution of the linear system, in terms of polynomials. -/
theorem IsLeastSquares.isShortestFit {rhs v : Array ℝ}
    (hv : IsLeastSquares (symmetricMatrix a (d + 1)) rhs v) (ha : a.IsOrdinary)
    (hrhs : rhs.size = (symmetricMatrix a (d + 1)).rows) :
    IsShortestFit a.toPolynomial (vectorPolynomial rhs) d (vectorPolynomial v) := by
  have hbest : IsShortestClosest (fun U : ℝ[X] => U.natDegree ≤ d)
      (fun U => coefficientNorm (symmetricLeft a.toPolynomial U - vectorPolynomial rhs))
      coefficientNorm (vectorPolynomial v) := by
    refine hv.isShortestClosest vectorPolynomial ?_ ?_ ?_ fun u _ =>
      coefficientNorm_vectorPolynomial u
    · intro u (hu : u.size = d + 1)
      refine natDegree_le_iff_coeff_eq_zero.mpr fun i hi => ?_
      rw [coeff_vectorPolynomial, getD_of_size_le (by omega)]
    · intro U hU
      exact exists_vectorPolynomial_eq (lt_of_le_of_lt (natDegree_le_iff_degree_le.mp hU)
        (by exact_mod_cast d.lt_succ_self))
    · intro u (hu : u.size = d + 1)
      rw [residualNorm_eq_coefficientNorm hrhs, ← hu, vectorPolynomial_mulVec_symmetricMatrix ha,
        symmetricLeft, axisConjugate_real (vectorPolynomial u)]
  exact ⟨hbest.fits_self, hbest.closest, hbest.shortest, hbest.unique⟩

/-- A right side other than zero that has no lower degree than the coefficient is fitted. -/
theorem exists_symmetricUnknown (hk : kernels.FitsExactly) (ha : a.IsOrdinary)
    (hb : b.variant = .ordinary) (hazero : a.isZero = false)
    (hright : (b + b.axisConj).isZero = false)
    (hd : (d : ℤ) = (b + b.axisConj).degree - a.degree) :
    ∃ x, symmetricUnknown kernels a b = .ok x ∧ x.IsOrdinary ∧
      IsShortestFit a.toPolynomial (b + b.axisConj).toPolynomial d x.toPolynomial := by
  have hordinary := Poly.isOrdinary_add_axisConj hb
  have hrows : (b + b.axisConj).coef.size = (symmetricMatrix a (d + 1)).rows := by
    rw [rows_symmetricMatrix ha, hordinary.size_coef, ha.size_coef]
    rw [hordinary.degree_eq hright, ha.degree_eq hazero] at hd
    omega
  obtain ⟨v, hok, hv⟩ := hk.leastSquares_ok hrows
  refine ⟨Poly.ofCoef v a.symbol, ?_, Poly.isOrdinary_ofCoef _ _, ?_⟩
  · have hpad := padTo_size (b + b.axisConj).coef
    have hwidth : ((b + b.axisConj).degree - a.degree).toNat = d := by omega
    rw [hrows] at hpad
    rw [symmetricUnknown, if_neg (by simp [hright]), if_neg (by omega), hwidth]
    change (padTo _ (symmetricMatrix a (d + 1)).rows >>= fun rhs =>
      kernels.leastSquares (symmetricMatrix a (d + 1)) rhs >>= _) = _
    rw [hpad]
    change (kernels.leastSquares _ _ >>= _) = _
    rw [hok]
    rfl
  · rw [Poly.toPolynomial_ofCoef]
    exact hv.isShortestFit ha hrows

/-- With exact least squares the polynomial found is the shortest of those of the degree chosen
that come closest to solving the symmetric equation; and when the right side has a large degree, it
solves the equation exactly when the greatest common divisor of `a` and its conjugate divides the
right side. -/
theorem symmetricUnknown_shortest (hk : kernels.FitsExactly) (ha : a.IsOrdinary)
    (hb : b.IsOrdinary) (hazero : a.isZero = false) (hright : (b + b.axisConj).isZero = false)
    (hd : (d : ℤ) = (b + b.axisConj).degree - a.degree) :
    ∃ x, symmetricUnknown kernels a b = .ok x ∧ x.IsOrdinary ∧
      IsShortestFit a.toPolynomial (b + b.axisConj).toPolynomial d x.toPolynomial ∧
      (2 * a.degree - 1 ≤ (b + b.axisConj).degree →
        ((a.axisConj * x + a * x.axisConj).toPolynomial = (b + b.axisConj).toPolynomial ↔
          EuclideanDomain.gcd a.toPolynomial a.axisConj.toPolynomial ∣
            (b + b.axisConj).toPolynomial)) := by
  obtain ⟨x, hok, hx, hfit⟩ := exists_symmetricUnknown hk ha hb.variant_eq hazero hright hd
  refine ⟨x, hok, hx, hfit, fun hlarge => ?_⟩
  have hordinary := Poly.isOrdinary_add_axisConj hb.variant_eq
  rw [hordinary.degree_eq hright, ha.degree_eq hazero] at hd hlarge
  rw [toPolynomial_symmetricLeft ha.variant_eq hx.variant_eq,
    Poly.toPolynomial_axisConj ha.variant_eq]
  refine ⟨fun hsolves => hsolves ▸ gcd_dvd_symmetricLeft _ _, fun hdvd => hfit.solves_iff.mpr ?_⟩
  exact exists_symmetric_solution (Poly.toPolynomial_ne_zero hazero)
    (axisConjugate_right hb.variant_eq) hdvd (by omega) (by omega)

/-- The right side that belongs to `s ^ 2`. -/
theorem toPolynomial_right_square :
    (Poly.ofCoef #[(0 : ℝ), 0, 1] "s" + (Poly.ofCoef #[0, 0, 1] "s").axisConj).toPolynomial =
      C 2 * X ^ 2 := by
  have hb := Poly.isOrdinary_ofCoef #[(0 : ℝ), 0, 1] "s"
  have hB : (Poly.ofCoef #[(0 : ℝ), 0, 1] "s").toPolynomial = X ^ 2 := by
    rw [Poly.toPolynomial_quadratic, C_0, C_1, zero_mul, one_mul, add_zero, add_zero]
  rw [Poly.toPolynomial_add_axisConj hb.variant_eq, hB, axisConjugate_real, X_pow_comp, neg_sq,
    ← two_mul]
  rfl

theorem isZero_right_square :
    (Poly.ofCoef #[(0 : ℝ), 0, 1] "s" + (Poly.ofCoef #[0, 0, 1] "s").axisConj).isZero = false :=
  Poly.isZero_eq_false (toPolynomial_right_square.trans_ne (by simp))

theorem degree_right_square :
    (Poly.ofCoef #[(0 : ℝ), 0, 1] "s" + (Poly.ofCoef #[0, 0, 1] "s").axisConj).degree = 2 := by
  have hright := Poly.isOrdinary_add_axisConj (Poly.variant_ofCoef #[(0 : ℝ), 0, 1] "s")
  rw [hright.degree_eq isZero_right_square, toPolynomial_right_square,
    natDegree_C_mul_X_pow 2 _ two_ne_zero, Nat.cast_two]

/-- For `1 + s` and right side `2 s ^ 2` the equation is solved. -/
theorem symmetricUnknown_shortest_square :
    (exactKernels ℝ).FitsExactly ∧ (Poly.ofCoef #[(1 : ℝ), 1] "s").isZero = false ∧
      (Poly.ofCoef #[(0 : ℝ), 0, 1] "s" + (Poly.ofCoef #[0, 0, 1] "s").axisConj).isZero = false ∧
      ((1 : ℕ) : ℤ) = (Poly.ofCoef #[(0 : ℝ), 0, 1] "s" +
        (Poly.ofCoef #[0, 0, 1] "s").axisConj).degree - (Poly.ofCoef #[(1 : ℝ), 1] "s").degree ∧
      ∃ x, symmetricUnknown (exactKernels ℝ) (Poly.ofCoef #[1, 1] "s")
          (Poly.ofCoef #[0, 0, 1] "s") = .ok x ∧
        ((Poly.ofCoef #[1, 1] "s").axisConj * x +
          Poly.ofCoef #[1, 1] "s" * x.axisConj).toPolynomial =
            (Poly.ofCoef #[(0 : ℝ), 0, 1] "s" +
              (Poly.ofCoef #[0, 0, 1] "s").axisConj).toPolynomial := by
  have ha := Poly.isOrdinary_ofCoef #[(1 : ℝ), 1] "s"
  have hb := Poly.isOrdinary_ofCoef #[(0 : ℝ), 0, 1] "s"
  have hA := Poly.toPolynomial_linear (1 : ℝ) 1 "s"
  have hB := toPolynomial_right_square
  have hAzero := Poly.isZero_ofCoef (c := #[(1 : ℝ), 1]) (i := 0) (by simp) "s"
  have hBzero := isZero_right_square
  have hAdegree := Poly.degree_linear (1 : ℝ) one_ne_zero "s"
  have hBdegree := degree_right_square
  have hd : ((1 : ℕ) : ℤ) = (Poly.ofCoef #[(0 : ℝ), 0, 1] "s" +
      (Poly.ofCoef #[0, 0, 1] "s").axisConj).degree - (Poly.ofCoef #[(1 : ℝ), 1] "s").degree := by
    rw [hAdegree, hBdegree]
    norm_num
  obtain ⟨x, hok, -, -, hsolves⟩ :=
    symmetricUnknown_shortest exactKernels_fitsExactly ha hb hAzero hBzero hd
  refine ⟨exactKernels_fitsExactly, hAzero, hBzero, hd, x, hok, (hsolves ?_).mpr ?_⟩
  · rw [hAdegree, hBdegree]
    norm_num
  · have htwo : (C 2 : ℝ[X]) = 2 := rfl
    refine gcd_dvd_of_solution (X := X) (Y := -X) ?_
    rw [Poly.toPolynomial_axisConj ha.variant_eq, hB, hA, axisConjugate_real, add_comp, C_mul_comp,
      X_comp, C_comp, C_1, htwo]
    ring

/-- A right side of lower degree than the coefficient is refused. For every other one the polynomial
found solves the symmetric equation exactly when there is a solution of the degree chosen, which is
the degree that the right side leaves. -/
theorem symmetricUnknown_within_degree (hk : kernels.FitsExactly) (ha : a.IsOrdinary)
    (hb : b.IsOrdinary) (hazero : a.isZero = false) (hright : (b + b.axisConj).isZero = false) :
    ((b + b.axisConj).degree < a.degree →
      symmetricUnknown kernels a b =
        .error (.degreeTooLow (b + b.axisConj).degree a.degree)) ∧
    ∀ d : ℕ, (d : ℤ) = (b + b.axisConj).degree - a.degree →
      ∃ x, symmetricUnknown kernels a b = .ok x ∧ x.IsOrdinary ∧
        ((a.axisConj * x + a * x.axisConj).toPolynomial = (b + b.axisConj).toPolynomial ↔
          ∃ U : ℝ[X], U.natDegree ≤ d ∧
            symmetricLeft a.toPolynomial U = (b + b.axisConj).toPolynomial) := by
  constructor
  · intro hlow
    rw [symmetricUnknown, if_neg (by simp [hright]), if_pos (by omega)]
    rfl
  · intro d hd
    obtain ⟨x, hok, hx, hfit⟩ := exists_symmetricUnknown hk ha hb.variant_eq hazero hright hd
    refine ⟨x, hok, hx, ?_⟩
    rw [toPolynomial_symmetricLeft ha.variant_eq hx.variant_eq]
    exact hfit.solves_iff

/-- For `1 + 2 s + 3 s ^ 2` and right side `2 s ^ 2` a constant is found, but the equation is solved
by a multiple of `s` only. -/
theorem symmetricUnknown_within_degree_unsolved :
    (exactKernels ℝ).FitsExactly ∧ (Poly.ofCoef #[(1 : ℝ), 2, 3] "s").isZero = false ∧
      (Poly.ofCoef #[(0 : ℝ), 0, 1] "s" + (Poly.ofCoef #[0, 0, 1] "s").axisConj).isZero = false ∧
      symmetricLeft (Poly.ofCoef #[1, 2, 3] "s").toPolynomial (C (-1 / 2) * X) =
        (Poly.ofCoef #[(0 : ℝ), 0, 1] "s" +
          (Poly.ofCoef #[0, 0, 1] "s").axisConj).toPolynomial ∧
      ∃ x, symmetricUnknown (exactKernels ℝ) (Poly.ofCoef #[1, 2, 3] "s")
          (Poly.ofCoef #[0, 0, 1] "s") = .ok x ∧
        ((Poly.ofCoef #[1, 2, 3] "s").axisConj * x +
          Poly.ofCoef #[1, 2, 3] "s" * x.axisConj).toPolynomial ≠
            (Poly.ofCoef #[(0 : ℝ), 0, 1] "s" +
              (Poly.ofCoef #[0, 0, 1] "s").axisConj).toPolynomial := by
  have ha := Poly.isOrdinary_ofCoef #[(1 : ℝ), 2, 3] "s"
  have hb := Poly.isOrdinary_ofCoef #[(0 : ℝ), 0, 1] "s"
  have hA := Poly.toPolynomial_quadratic (1 : ℝ) 2 3 "s"
  have hB := toPolynomial_right_square
  have hAzero := Poly.isZero_ofCoef (c := #[(1 : ℝ), 2, 3]) (i := 0) (by simp) "s"
  have hBzero := isZero_right_square
  have hAdegree := Poly.degree_quadratic (1 : ℝ) 2 three_ne_zero "s"
  have hBdegree := degree_right_square
  have hleft : ∀ U : ℝ[X], symmetricLeft (Poly.ofCoef #[1, 2, 3] "s").toPolynomial U =
      (C 3 * X ^ 2 - C 2 * X + 1) * U + (C 3 * X ^ 2 + C 2 * X + 1) * U.comp (-X) := by
    intro U
    rw [symmetricLeft, hA, axisConjugate_real, axisConjugate_real, add_comp, add_comp, C_mul_comp,
      C_mul_comp, X_pow_comp, X_comp, C_comp, C_1]
    ring
  obtain ⟨x, hok, -, hsolves⟩ := (symmetricUnknown_within_degree exactKernels_fitsExactly ha hb
    hAzero hBzero).2 0 (by rw [hAdegree, hBdegree]; rfl)
  refine ⟨exactKernels_fitsExactly, hAzero, hBzero, ?_, x, hok, hsolves.not.mpr ?_⟩
  · have htwo : (C 2 : ℝ[X]) = 2 := rfl
    have hproduct : (C 2 * C (-1 / 2) : ℝ[X]) = -1 := by
      rw [← C_mul, mul_div_cancel₀ _ two_ne_zero, C_neg, C_1]
    rw [hleft, hB, C_mul_comp, X_comp]
    linear_combination (-2 * X ^ 2) * hproduct - X ^ 2 * htwo
  · rintro ⟨U, hU, heq⟩
    obtain ⟨t, rfl⟩ := natDegree_eq_zero.mp (Nat.le_zero.mp hU)
    rw [hleft, hB, C_comp] at heq
    have hzero : t + t = 0 := by simpa using congrArg (eval 0) heq
    have hone : (3 - 2 + 1) * t + (3 + 2 + 1) * t = 2 := by simpa using congrArg (eval 1) heq
    linarith

/-- For `1 + s` and right side `2` the equation is refused, although `1` solves it: the leading
terms of `ã x` and `a x̃` cancel. -/
theorem symmetricUnknown_overlooks_solution :
    (Poly.ofCoef #[(1 : ℝ), 1] "s").isZero = false ∧
      (Poly.constant (1 : ℝ) "s" + (Poly.constant 1 "s").axisConj).isZero = false ∧
      (Poly.constant (1 : ℝ) "s" + (Poly.constant 1 "s").axisConj).degree <
        2 * (Poly.ofCoef #[(1 : ℝ), 1] "s").degree - 1 ∧
      symmetricLeft (Poly.ofCoef #[1, 1] "s").toPolynomial 1 =
        (Poly.constant (1 : ℝ) "s" + (Poly.constant 1 "s").axisConj).toPolynomial ∧
      symmetricUnknown (exactKernels ℝ) (Poly.ofCoef #[1, 1] "s") (Poly.constant 1 "s") =
        .error (.degreeTooLow 0 1) := by
  have ha := Poly.isOrdinary_ofCoef #[(1 : ℝ), 1] "s"
  have hb := Poly.isOrdinary_constant (1 : ℝ) "s"
  have hright := Poly.isOrdinary_add_axisConj hb.variant_eq
  have hA := Poly.toPolynomial_linear (1 : ℝ) 1 "s"
  have hB : (Poly.constant (1 : ℝ) "s" + (Poly.constant 1 "s").axisConj).toPolynomial = C 2 := by
    rw [Poly.toPolynomial_add_axisConj hb.variant_eq, Poly.toPolynomial_constant,
      axisConjugate_real, C_comp, ← C_add, one_add_one_eq_two]
  have hAzero := Poly.isZero_ofCoef (c := #[(1 : ℝ), 1]) (i := 0) (by simp) "s"
  have hBzero := Poly.isZero_eq_false (hB.trans_ne (by simp))
  have hAdegree := Poly.degree_linear (1 : ℝ) one_ne_zero "s"
  have hBdegree : (Poly.constant (1 : ℝ) "s" + (Poly.constant 1 "s").axisConj).degree = 0 := by
    rw [hright.degree_eq hBzero, hB, natDegree_C, Nat.cast_zero]
  refine ⟨hAzero, hBzero, ?_, ?_, ?_⟩
  · rw [hAdegree, hBdegree]
    norm_num
  · have htwo : (C 2 : ℝ[X]) = 2 := rfl
    rw [hB, hA, symmetricLeft, map_one (axisConjugate (K := ℝ)), axisConjugate_real, add_comp,
      C_mul_comp, X_comp, C_comp, C_1, htwo]
    ring
  · rw [symmetricUnknown, if_neg (by simp [hBzero]), hAdegree, hBdegree, if_pos (by norm_num)]
    rfl

end Fit

end PolynomialEquations
