import PolynomialEquations.Mixed.Transform
import PolynomialEquations.Proofs.Mixed.Conjugation
import PolynomialEquations.Proofs.Poly.Transform

/-!
# Scaling, shifting and reversing mixed polynomials

The transformations act on the complex coefficients of a polynomial in the same way whether it is
stored with real or with complex coefficients, and whether a factor is real or complex. All build
trimmed polynomials.
-/

namespace PolynomialEquations

namespace MixedPoly

variable {a r : MixedPoly ℝ ℂ}

section Reading

/-- Reading a polynomial over the complex numbers keeps its window. -/
@[simp] theorem first_toComplex (a : MixedPoly ℝ ℂ) : a.toComplex.first = a.first := by
  cases a with
  | real p => exact Poly.first_map _ p
  | complex p => rfl

@[simp] theorem last_toComplex (a : MixedPoly ℝ ℂ) : a.toComplex.last = a.last := by
  cases a with
  | real p =>
    change (p.map _).last = p.last
    rw [Poly.last, Poly.last, Poly.first_map, Poly.coef_map, Array.size_map]
  | complex p => rfl

/-- A polynomial counts as zero over the complex numbers exactly when it does as it is stored. -/
@[simp] theorem isZero_toComplex (a : MixedPoly ℝ ℂ) : a.toComplex.isZero = a.isZero := by
  rw [Bool.eq_iff_iff, isZero_iff_coeff, Poly.isZero_iff_coeff]
  rfl

@[simp] theorem degree_toComplex (a : MixedPoly ℝ ℂ) : a.toComplex.degree = a.degree := by
  have hdegree : a.degree = if a.isZero then -1 else a.last := by cases a <;> rfl
  rw [hdegree, Poly.degree, isZero_toComplex, last_toComplex]

/-- The degree of a polynomial other than zero is its last exponent. -/
theorem degree_eq_last (hzero : a.isZero = false) : a.degree = a.last := by
  rw [← degree_toComplex, Poly.degree, isZero_toComplex, if_neg (by simp [hzero]), last_toComplex]

end Reading

section Scale

/-- Scaling multiplies the coefficient at every exponent by that power of the factor. -/
theorem coeff_scale (t : MixedScalar ℝ ℂ) (a : MixedPoly ℝ ℂ) (k : ℤ) :
    (a.scale t).coeff k = a.coeff k * t.toComplex ^ k := by
  cases t with
  | complex z => cases a <;> exact Poly.coeff_scale z _ k
  | real t =>
    cases a with
    | real p =>
      change (real (p.scale t) : MixedPoly ℝ ℂ).coeff k = _
      rw [coeff_real, Poly.coeff_scale, Complex.ofReal_mul, Complex.ofReal_zpow, coeff_real]
      rfl
    | complex p =>
      change (complex (p.mapWithExponent fun k x => x * ((t ^ k : ℝ) : ℂ))).coeff k = _
      rw [coeff_complex, Poly.coeff_mapWithExponent (fun k => zero_mul ((t ^ k : ℝ) : ℂ)),
        Complex.ofReal_zpow]
      rfl

theorem trimmed_scale (t : MixedScalar ℝ ℂ) (a : MixedPoly ℝ ℂ) : (a.scale t).Trimmed := by
  cases t <;> cases a <;> exact Poly.trimmed_mapWithExponent _ _

end Scale

section Shift

/-- A shift moves the coefficient at every exponent. -/
theorem coeff_shift (n : ℤ) (a : MixedPoly ℝ ℂ) (k : ℤ) :
    (a.shift n).coeff k = a.coeff (k - n) := by
  cases a with
  | real p =>
    change (real (p.shift n) : MixedPoly ℝ ℂ).coeff k = _
    rw [coeff_real, coeff_real, Poly.coeff_shift]
  | complex p => exact Poly.coeff_shift n p k

theorem trimmed_shift (n : ℤ) (a : MixedPoly ℝ ℂ) : (a.shift n).Trimmed := by
  cases a <;> exact Poly.trimmed_shift n _

end Shift

section Reciprocal

/-- The reciprocal of an ordinary polynomial is returned. -/
theorem exists_reciprocal (hordinary : a.variant = .ordinary) : ∃ r, a.reciprocal = .ok r := by
  cases a with
  | real p =>
    refine ⟨real (Poly.ofCoef p.conj.coef.reverse p.symbol), ?_⟩
    rw [reciprocal, Poly.reciprocal_eq_ok_iff.mpr ⟨hordinary, rfl⟩]
    rfl
  | complex p =>
    refine ⟨complex (Poly.ofCoef p.conj.coef.reverse p.symbol), ?_⟩
    rw [reciprocal, Poly.reciprocal_eq_ok_iff.mpr ⟨hordinary, rfl⟩]
    rfl

/-- The reciprocal of a Laurent polynomial is refused. -/
theorem reciprocal_of_laurent (hlaurent : a.variant = .laurent) :
    a.reciprocal = .error .laurentReciprocal := by
  rcases a with (_ | _) | (_ | _)
  · exact nomatch hlaurent
  · rfl
  · exact nomatch hlaurent
  · rfl

/-- The reciprocal conjugates the coefficients and counts the exponents down from the last one. -/
theorem Trimmed.coeff_reciprocal (ha : a.Trimmed) (h : a.reciprocal = .ok r) (k : ℤ) :
    r.coeff k = starRingEnd ℂ (a.coeff (a.last - k)) := by
  cases a with
  | real p =>
    obtain ⟨q, hq, rfl⟩ := exists_of_map_eq_ok h
    rw [coeff_real, coeff_real, Poly.Trimmed.coeff_reciprocal ha hq, conj_trivial,
      Complex.conj_ofReal]
    rfl
  | complex p =>
    obtain ⟨q, hq, rfl⟩ := exists_of_map_eq_ok h
    exact Poly.Trimmed.coeff_reciprocal ha hq k

theorem trimmed_of_reciprocal (h : a.reciprocal = .ok r) : r.Trimmed := by
  cases a with
  | real p =>
    obtain ⟨q, hq, rfl⟩ := exists_of_map_eq_ok h
    obtain ⟨-, rfl⟩ := Poly.reciprocal_eq_ok_iff.mp hq
    exact Poly.trimmed_ofCoef _ _
  | complex p =>
    obtain ⟨q, hq, rfl⟩ := exists_of_map_eq_ok h
    obtain ⟨-, rfl⟩ := Poly.reciprocal_eq_ok_iff.mp hq
    exact Poly.trimmed_ofCoef _ _

end Reciprocal

section Coefficients

theorem trimmed_conj (a : MixedPoly ℝ ℂ) : a.conj.Trimmed := by
  cases a <;> exact Poly.trimmed_mapCoef _ _

theorem trimmed_chop (tolerance : ℝ) (a : MixedPoly ℝ ℂ) : (a.chop tolerance).Trimmed := by
  cases a <;> exact Poly.trimmed_mapCoef _ _

end Coefficients

end MixedPoly

end PolynomialEquations
