import PolynomialEquations.Mixed.Arithmetic
import PolynomialEquations.Proofs.Poly.Coefficients
import Mathlib.Analysis.CStarAlgebra.Classes

/-!
# Coefficients of mixed polynomials

A polynomial over the real numbers is read as one over the complex numbers without a change of its
kind, its window or its trimmed form. So every polynomial of either sort has complex coefficients,
and those of a real one are its own.
-/

namespace PolynomialEquations

namespace Poly

variable {K L : Type} [Zero K] [Zero L] {f : K → L}

omit [Zero K] [Zero L] in
@[simp] theorem variant_map (f : K → L) (a : Poly K) : (a.map f).variant = a.variant := by
  cases a <;> rfl

omit [Zero K] [Zero L] in
@[simp] theorem first_map (f : K → L) (a : Poly K) : (a.map f).first = a.first := by
  cases a <;> rfl

omit [Zero K] [Zero L] in
@[simp] theorem symbol_map (f : K → L) (a : Poly K) : (a.map f).symbol = a.symbol := by
  cases a <;> rfl

omit [Zero K] [Zero L] in
@[simp] theorem coef_map (f : K → L) (a : Poly K) : (a.map f).coef = a.coef.map f := by
  cases a <;> rfl

/-- Reading the coefficients as other scalars acts on the coefficient at every exponent. -/
theorem coeff_map (hf : f 0 = 0) (a : Poly K) (k : ℤ) : (a.map f).coeff k = f (a.coeff k) := by
  unfold coeff
  rw [first_map, coef_map]
  split
  · exact getD_map hf _ _
  · exact hf.symm

/-- Reading the coefficients as other scalars keeps the trimmed form. -/
theorem Trimmed.map [BEq K] [LawfulBEq K] [BEq L] [LawfulBEq L] (hf : ∀ x, f x = 0 ↔ x = 0)
    {a : Poly K} (ha : a.Trimmed) : (a.map f).Trimmed := by
  have hzero : f 0 = 0 := (hf 0).mpr rfl
  have hentry : ∀ (c : Array K) (i : ℕ), (c.getD i 0 == 0) = false →
      ((c.map f).getD i 0 == 0) = false := by
    intro c i h
    rw [getD_map hzero, beq_eq_false_iff_ne, ne_eq, hf]
    exact beq_eq_false_iff_ne.mp h
  cases a with
  | ordinary c s =>
    rcases ha with rfl | ⟨hpos, hlast⟩
    · exact Or.inl (by simp [hzero])
    · refine Or.inr ⟨by simpa using hpos, ?_⟩
      rw [Array.size_map]
      exact hentry c _ hlast
  | laurent first c s =>
    rcases ha with ⟨rfl, rfl⟩ | ⟨hpos, hfirst, hlast⟩
    · exact Or.inl ⟨rfl, by simp [hzero]⟩
    · refine Or.inr ⟨by simpa using hpos, hentry c _ hfirst, ?_⟩
      rw [Array.size_map]
      exact hentry c _ hlast

end Poly

namespace MixedPoly

/-- The coefficient at an exponent as a complex number. -/
noncomputable def coeff (a : MixedPoly ℝ ℂ) (k : ℤ) : ℂ := a.toComplex.coeff k

/-- The polynomial is in trimmed form. -/
def Trimmed (a : MixedPoly ℝ ℂ) : Prop := a.ask Poly.Trimmed Poly.Trimmed

@[simp] theorem coeff_real (p : Poly ℝ) (k : ℤ) :
    (real p : MixedPoly ℝ ℂ).coeff k = (p.coeff k : ℂ) :=
  Poly.coeff_map Complex.ofReal_zero p k

@[simp] theorem coeff_complex (p : Poly ℂ) (k : ℤ) :
    (complex p : MixedPoly ℝ ℂ).coeff k = p.coeff k := rfl

/-- Only finitely many exponents have coefficients other than zero. -/
theorem finite_support_coeff (a : MixedPoly ℝ ℂ) : a.coeff.support.Finite :=
  a.toComplex.finite_support_coeff

/-- Reading a polynomial over the complex numbers keeps its kind. -/
@[simp] theorem variant_toComplex (a : MixedPoly ℝ ℂ) : a.toComplex.variant = a.variant := by
  cases a with
  | real p => exact Poly.variant_map _ p
  | complex p => rfl

/-- Reading a polynomial over the complex numbers keeps its trimmed form. -/
theorem Trimmed.toComplex {a : MixedPoly ℝ ℂ} (ha : a.Trimmed) : a.toComplex.Trimmed := by
  cases a with
  | real p => exact Poly.Trimmed.map (fun _ => Complex.ofReal_eq_zero) ha
  | complex p => exact ha

end MixedPoly

end PolynomialEquations
