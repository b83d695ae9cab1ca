import PolynomialEquations.Mixed.Basic
import PolynomialEquations.Proofs.Poly.Meaning
import Mathlib.Analysis.CStarAlgebra.Classes

/-!
# Polynomials with given roots

Multiplying coefficient vectors in pairs, and the products in pairs again, gives the product of all
of them. For roots that are closed under complex conjugation the monic polynomial with these roots
has real coefficients, and it is stored with real coefficients.
-/

namespace PolynomialEquations

open Polynomial

section Products

variable {K : Type} [CommRing K]

/-- The products of the first vectors with the next ones, and the vectors behind both, have the
product of all vectors. -/
theorem prod_zipWith_convolution {ps : List (Array K)} {m : ℕ} (hm : 2 * m ≤ ps.length) :
    ((List.zipWith Poly.convolution (ps.take m) (ps.drop m)).map vectorPolynomial).prod *
      ((ps.drop (2 * m)).map vectorPolynomial).prod = (ps.map vectorPolynomial).prod := by
  have hpairs : (List.zipWith Poly.convolution (ps.take m) (ps.drop m)).map vectorPolynomial =
      List.zipWith (· * ·) ((ps.take m).map vectorPolynomial)
        ((ps.drop m).map vectorPolynomial) := by
    rw [List.map_zipWith, List.zipWith_map]
    simp only [vectorPolynomial_convolution]
  have hfirst : ((ps.take m).map vectorPolynomial).drop
      ((ps.drop m).map vectorPolynomial).length = [] := by
    refine List.drop_eq_nil_of_le ?_
    rw [List.length_map, List.length_map, List.length_take, List.length_drop]
    omega
  have hall := List.prod_mul_prod_eq_prod_zipWith_mul_prod_drop
    ((ps.take m).map vectorPolynomial) ((ps.drop m).map vectorPolynomial)
  rw [← hpairs, hfirst, List.prod_nil, mul_one, ← List.map_drop, List.drop_drop,
    List.length_map, List.length_take, min_eq_left (by omega), ← two_mul, ← List.prod_append,
    ← List.map_append, List.take_append_drop] at hall
  exact hall.symm

/-- One round of pairwise products keeps the product of all vectors. -/
theorem prod_pairProducts {ps : List (Array K)} (h : 2 ≤ ps.length) :
    ((pairProducts ps).map vectorPolynomial).prod = (ps.map vectorPolynomial).prod := by
  rw [← prod_zipWith_convolution (Nat.mul_div_le ps.length 2)]
  unfold pairProducts
  dsimp only
  split
  case h_1 p rest q hp hq =>
    rw [hp, hq]
    simp only [List.map_cons, List.map_nil, List.prod_cons, List.prod_nil, mul_one,
      vectorPolynomial_convolution]
    exact mul_right_comm _ _ _
  case h_2 hodd =>
    -- there is a first product, so a vector behind both halves would have joined it
    have hrest : ps.drop (2 * (ps.length / 2)) = [] := by
      have hpos : 0 < (List.zipWith Poly.convolution (ps.take (ps.length / 2))
          (ps.drop (ps.length / 2))).length := by
        rw [List.length_zipWith, List.length_take, List.length_drop]
        omega
      obtain ⟨p, rest, hp⟩ := List.exists_cons_of_length_pos hpos
      have hlength : (ps.drop (2 * (ps.length / 2))).length ≤ 1 := by
        rw [List.length_drop]
        omega
      match hq : ps.drop (2 * (ps.length / 2)), hlength with
      | [], _ => rfl
      | [q], _ => exact absurd hq (hodd p rest q hp)
    rw [hrest, List.map_nil, List.prod_nil, mul_one]

/-- The product tree stands for the product. -/
theorem vectorPolynomial_treeProduct (ps : List (Array K)) :
    vectorPolynomial (treeProduct ps) = (ps.map vectorPolynomial).prod := by
  induction ps using treeProduct.induct with
  | case1 => rw [treeProduct, vectorPolynomial_singleton, C_1, List.map_nil, List.prod_nil]
  | case2 p => rw [treeProduct, List.map_singleton, List.prod_singleton]
  | case3 p q rest ih => rw [treeProduct, ih, prod_pairProducts (by simp)]

/-- The monic polynomial with given roots is the product of its linear factors. -/
theorem vectorPolynomial_monicCoef (roots : List K) :
    vectorPolynomial (monicCoef roots) = (roots.map fun r => X - C r).prod := by
  rw [monicCoef, vectorPolynomial_treeProduct, List.map_map]
  congr 1
  refine List.map_congr_left fun r _ => ?_
  rw [Function.comp_apply, vectorPolynomial_pair, C_1, one_mul, C_neg, ← sub_eq_add_neg]

end Products

/-- The order in which the factors are taken does not matter. -/
theorem vectorPolynomial_coefOfRoots {K : Type} [RCLike K] (roots : List K) :
    vectorPolynomial (coefOfRoots roots) = ((roots : Multiset K).map fun r => X - C r).prod := by
  rw [coefOfRoots, vectorPolynomial_monicCoef, Multiset.map_coe, Multiset.prod_coe]
  exact ((List.mergeSort_perm roots _).map _).prod_eq

section Real

/-- A product of linear factors whose roots are closed under conjugation has real coefficients. -/
theorem im_coeff_prod_eq_zero {s : Multiset ℂ} (hs : s.map (starRingEnd ℂ) = s) (n : ℕ) :
    (((s.map fun r => X - C r).prod : ℂ[X]).coeff n).im = 0 := by
  have hmap : ((s.map fun r => X - C r).prod : ℂ[X]).map (starRingEnd ℂ) =
      (s.map fun r => X - C r).prod := by
    rw [Polynomial.map_multiset_prod, Multiset.map_map]
    conv_rhs => rw [← hs, Multiset.map_map]
    simp only [Function.comp_def, Polynomial.map_sub, map_X, map_C]
  rw [← Complex.conj_eq_iff_im, ← coeff_map, hmap]

/-- A vector without imaginary parts stands for the same polynomial as the real parts. -/
theorem map_vectorPolynomial_re {v : Array ℂ} (hv : ∀ i, (v.getD i 0).im = 0) :
    (vectorPolynomial (v.map Scalar.re)).map (algebraMap ℝ ℂ) = vectorPolynomial v := by
  ext n
  rw [coeff_map, coeff_vectorPolynomial, coeff_vectorPolynomial,
    getD_map (f := Scalar.re) Complex.zero_re]
  exact Complex.ext rfl (hv n).symm

/-- The monic polynomial with roots closed under conjugation is stored with real coefficients. -/
theorem exists_polyOfRoots {roots : List ℂ}
    (hroots : (roots : Multiset ℂ).map (starRingEnd ℂ) = roots) (s : String) :
    ∃ p : Poly ℝ, polyOfRoots roots s = .real p ∧ p.IsOrdinary ∧ p.symbol = s ∧
      p.toPolynomial.map (algebraMap ℝ ℂ) = ((roots : Multiset ℂ).map fun r => X - C r).prod := by
  cases roots with
  | nil =>
    refine ⟨_, rfl, Poly.isOrdinary_ofCoef _ s, Poly.symbol_ofCoef _ s, ?_⟩
    rw [Poly.toPolynomial_ofCoef, vectorPolynomial_singleton, C_1, Polynomial.map_one]
    rfl
  | cons r rest =>
    let v := coefOfRoots (r :: rest)
    have hv : vectorPolynomial v = _ := vectorPolynomial_coefOfRoots (r :: rest)
    have hreal : ∀ i, (v.getD i 0).im = 0 := fun i => by
      rw [← coeff_vectorPolynomial, hv]
      exact im_coeff_prod_eq_zero hroots i
    have hsmall : v.all (fun z => decide
        (Scalar.modulus (Scalar.im z) < (2.220446049250313e-13 : ℝ))) = true := by
      rw [Array.all_eq_true]
      intro i hi
      have him : v[i].im = 0 := getD_of_lt_size hi ▸ hreal i
      rw [decide_eq_true_iff, scalar_im, RCLike.im_eq_complex_im, him, scalar_modulus, norm_zero]
      norm_num
    refine ⟨Poly.ofCoef (v.map Scalar.re) s, if_pos hsmall, Poly.isOrdinary_ofCoef _ s,
      Poly.symbol_ofCoef _ s, ?_⟩
    rw [Poly.toPolynomial_ofCoef, map_vectorPolynomial_re hreal, hv]

end Real

end PolynomialEquations
