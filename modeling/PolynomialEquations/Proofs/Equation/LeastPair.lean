import PolynomialEquations.Proofs.Equation.SquareSystem
import PolynomialEquations.Proofs.Poly.Norm

/-!
# The candidate pair without its linear system

With exact kernels the candidate pair for `a x + b y = c` can be described by the equation alone: of
the pairs with the degrees chosen it is the shortest of those that come closest to a solution. There
is only one such pair. So whatever carries an equation to another one, and keeps degrees and
lengths, carries the candidate pair of the first to that of the second.
-/

namespace PolynomialEquations

open Polynomial

variable {K : Type} [RCLike K]

section Pairs

variable {A B C : K[X]} {w₁ w₂ : ℕ} {P Q : K[X] × K[X]}

/-- The two polynomials of the pair have degrees below `w₁` and `w₂`. -/
def FitsWidths (w₁ w₂ : ℕ) (P : K[X] × K[X]) : Prop :=
  P.1.degree < (w₁ : WithBot ℕ) ∧ P.2.degree < (w₂ : WithBot ℕ)

/-- The length of what a pair leaves of the equation `A X + B Y = C`. -/
noncomputable def misfit (A B C : K[X]) (P : K[X] × K[X]) : ℝ :=
  coefficientNorm (A * P.1 + B * P.2 - C)

/-- The 2-norm of the coefficients of both polynomials together. -/
noncomputable def pairNorm (P : K[X] × K[X]) : ℝ :=
  √(coefficientNorm P.1 ^ 2 + coefficientNorm P.2 ^ 2)

/-- Nothing is left of the equation exactly for its solutions. -/
theorem misfit_eq_zero_iff : misfit A B C P = 0 ↔ A * P.1 + B * P.2 = C := by
  rw [misfit, coefficientNorm_eq_zero_iff, sub_eq_zero]

/-- Of the pairs that fit the widths, the pair `P` is the shortest of those that come closest to
solving `A X + B Y = C`. -/
def IsLeastPair (A B C : K[X]) (w₁ w₂ : ℕ) (P : K[X] × K[X]) : Prop :=
  IsShortestClosest (FitsWidths w₁ w₂) (misfit A B C) pairNorm P

/-- A pair that comes closest solves every equation that has a solution within the widths. -/
theorem IsLeastPair.solves (h : IsLeastPair A B C w₁ w₂ P) (hQ : FitsWidths w₁ w₂ Q)
    (hsolves : A * Q.1 + B * Q.2 = C) : A * P.1 + B * P.2 = C := by
  have hle := h.closest Q hQ
  rw [misfit_eq_zero_iff.mpr hsolves] at hle
  exact misfit_eq_zero_iff.mp (le_antisymm hle (coefficientNorm_nonneg _))

end Pairs

section System

variable {a b c : Poly K} {w w₁ w₂ : ℕ} {rhs v : Array K}

/-- The two polynomials that a vector stands for, cut behind its first `w` entries. -/
noncomputable def cutPair (w : ℕ) (v : Array K) : K[X] × K[X] :=
  (vectorPolynomial (v.extract 0 w), vectorPolynomial (v.extract w v.size))

/-- A vector with one entry for every column fits the widths of the blocks. -/
theorem fitsWidths_cutPair (hv : v.size = w₁ + w₂) : FitsWidths w₁ w₂ (cutPair w₁ v) := by
  constructor <;> refine degree_vectorPolynomial_lt ?_ <;> rw [Array.size_extract] <;> omega

/-- Every pair that fits the widths comes from a vector. -/
theorem exists_cutPair_eq {Q : K[X] × K[X]} (hQ : FitsWidths w₁ w₂ Q) :
    ∃ u, u.size = w₁ + w₂ ∧ cutPair w₁ u = Q :=
  ⟨pairVector w₁ w₂ Q.1 Q.2, size_pairVector w₁ w₂ Q.1 Q.2,
    Prod.ext (vectorPolynomial_pairVector_left w₂ Q.2 hQ.1)
      (vectorPolynomial_pairVector_right w₁ Q.1 hQ.2)⟩

/-- The residual of the system is what is left of the equation. -/
theorem misfit_cutPair (hrhs : rhs.size = (sylvester a b w₁ w₂).rows) (hv : v.size = w₁ + w₂) :
    misfit a.toPolynomial b.toPolynomial (vectorPolynomial rhs) (cutPair w₁ v) =
      residualNorm (sylvester a b w₁ w₂) rhs v := by
  rw [residualNorm_eq_coefficientNorm hrhs, vectorPolynomial_mulVec_sylvester a b hv]
  rfl

/-- A vector is as long as its two polynomials together. -/
theorem pairNorm_cutPair (hw : w ≤ v.size) : pairNorm (cutPair w v) = euclideanNorm v := by
  rw [pairNorm, cutPair, coefficientNorm_vectorPolynomial, coefficientNorm_vectorPolynomial,
    ← euclideanNorm_extract_sq v hw, Real.sqrt_sq (euclideanNorm_nonneg v)]

/-- The least squares solution of the system, in terms of polynomials. -/
theorem IsLeastSquares.isLeastPair (hv : IsLeastSquares (sylvester a b w₁ w₂) rhs v)
    (hrhs : rhs.size = (sylvester a b w₁ w₂).rows) :
    IsLeastPair a.toPolynomial b.toPolynomial (vectorPolynomial rhs) w₁ w₂ (cutPair w₁ v) :=
  hv.isShortestClosest (cutPair w₁) (fun _ => fitsWidths_cutPair) (fun _ => exists_cutPair_eq)
    (fun _ => misfit_cutPair hrhs) fun _ hu => pairNorm_cutPair (by rw [hu]; exact le_self_add)

/-- With exact kernels the candidate pair is the shortest of the pairs that come closest to a
solution. -/
theorem SquareSystem.exists_leastPair {kernels : LinearKernels K} (hk : kernels.SolvesExactly)
    {policy : DegreePolicy} {m : ℕ} (hs : SquareSystem policy a b c w₁ w₂ m)
    (ha : a.IsOrdinary) (hb : b.IsOrdinary) (hc : c.IsOrdinary)
    (hazero : a.isZero = false) (hbzero : b.isZero = false) :
    ∃ x y, FittingPair w₁ w₂ x y ∧ x.symbol = a.symbol ∧ y.symbol = a.symbol ∧
      (candidatePair kernels a b c policy : Traced ℝ _).outcome = .ok (x, y) ∧
      IsLeastPair a.toPolynomial b.toPolynomial c.toPolynomial w₁ w₂
        (x.toPolynomial, y.toPolynomial) := by
  obtain ⟨rhs, v, hpad, hrhs, hv, hsolve, hpair⟩ :=
    hs.exists_candidatePair (R := ℝ) hk.returnsSizes ha hb hc hazero hbzero
  have hrows := hs.rows_sylvester ha hb
  have hcols : (sylvester a b w₁ w₂).cols = m := hs.square
  have hright : vectorPolynomial rhs = c.toPolynomial := vectorPolynomial_congr (getD_padTo hpad)
  have hleast := isLeastSquares_solveOrFit hk (hrows.trans hcols.symm) (hrhs.trans hrows.symm)
    hsolve
  have hsize : v.size = w₁ + w₂ := hv.trans hs.square.symm
  refine ⟨_, _, fittingPair_unknownOf hsize a.symbol, symbol_unknownOf _ _ _,
    symbol_unknownOf _ _ _, hpair, ?_⟩
  rw [toPolynomial_unknownOf (by rw [Array.size_extract]; omega),
    toPolynomial_unknownOf (by rw [Array.size_extract]; omega), ← hright]
  exact hleast.isLeastPair (hrhs.trans hrows.symm)

end System

end PolynomialEquations
