import PolynomialEquations.Equation.Symmetric
import PolynomialEquations.Proofs.Matrix.Sylvester
import PolynomialEquations.Proofs.Poly.Conjugation

/-!
# The matrix of the symmetric equation

Alternating signs replace the variable of a polynomial by its negative, so the banded matrix of `a`
after alternating signs maps the coefficients of a real polynomial `x` to those of `a x̃`, and the
matrix of the symmetric equation maps them to those of `ã x + a x̃`.
-/

namespace PolynomialEquations

open Polynomial

variable {K : Type} [RCLike K]

/-- Alternating signs turn the coefficients of `x` into those of `x` at the negative variable. -/
theorem vectorPolynomial_mulVec_alternatingSigns (v : Array K) :
    vectorPolynomial ((alternatingSigns v.size).mulVec v) = (vectorPolynomial v).comp (-X) := by
  ext i
  rw [coeff_comp_neg_X, coeff_vectorPolynomial, coeff_vectorPolynomial]
  by_cases hi : i < v.size
  · have hentry : ∀ k ∈ Finset.range v.size, (alternatingSigns v.size).get i k * v.getD k 0 =
        if k = i then v.getD i 0 * (-1) ^ i else 0 := by
      intro k hk
      rw [alternatingSigns, Mat.get_ofFn _ hi (Finset.mem_range.mp hk)]
      by_cases hik : i = k
      · subst hik
        rw [if_pos rfl, if_pos rfl, mul_comm]
        congr 1
        split
        · next heven => rw [Even.neg_one_pow (Nat.even_iff.mpr heven)]
        · next hodd => rw [Odd.neg_one_pow (Nat.odd_iff.mpr (by omega))]
      · rw [if_neg hik, if_neg (Ne.symm hik), zero_mul]
    rw [Mat.getD_mulVec _ _ hi]
    change ∑ k ∈ Finset.range v.size, _ = _
    rw [Finset.sum_congr rfl hentry, Finset.sum_ite_eq', if_pos (Finset.mem_range.mpr hi)]
  · rw [getD_of_size_le (by rw [Mat.size_mulVec]; exact Nat.le_of_not_lt hi),
      getD_of_size_le (by omega), zero_mul]

variable {a : Poly K}

theorem rows_symmetricMatrix (ha : a.IsOrdinary) (c : ℕ) :
    (symmetricMatrix a c).rows = a.coef.size + c - 1 := by
  rw [← ha.size_coef_axisConj]
  rfl

@[simp] theorem cols_symmetricMatrix (a : Poly K) (c : ℕ) : (symmetricMatrix a c).cols = c := rfl

/-- The matrix of the symmetric equation maps the coefficients of `x` to those of `ã x + a x̃`,
where the coefficients of `x` are not conjugated. -/
theorem vectorPolynomial_mulVec_symmetricMatrix (ha : a.IsOrdinary) (v : Array K) :
    vectorPolynomial ((symmetricMatrix a v.size).mulVec v) =
      axisConjugate a.toPolynomial * vectorPolynomial v +
        a.toPolynomial * (vectorPolynomial v).comp (-X) := by
  let D := alternatingSigns v.size (K := K)
  have hsize : (D.mulVec v).size = v.size := Mat.size_mulVec D v
  have hrows : ((toeplitz a v.size).mul D).rows = (toeplitz a.axisConj v.size).rows := by
    rw [rows_toeplitz, ha.size_coef_axisConj]
    rfl
  rw [← Poly.toPolynomial_axisConj ha.variant_eq, ← vectorPolynomial_mulVec_toeplitz,
    ← vectorPolynomial_mulVec_alternatingSigns, ← vectorPolynomial_mulVec_toeplitz, hsize,
    ← Mat.mulVec_mul rfl]
  ext i
  simp only [coeff_add, coeff_vectorPolynomial]
  exact Mat.getD_mulVec_add hrows rfl v i

end PolynomialEquations
