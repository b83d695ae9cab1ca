import PolynomialEquations.Proofs.Poly.Mirror
import PolynomialEquations.Proofs.Poly.Roots

/-!
# What a root finder promises

An exact root finder returns all complex roots of a polynomial of positive degree, each as often as
its multiplicity says. A polynomial with one coefficient is never handed to it, and its roots are
found all the same. The roots found of a real polynomial in a region that is its own reflection in
the real axis make a real product.
-/

namespace PolynomialEquations

open Polynomial

variable {K : Type} [Field K] [Algebra K ℂ]

/-- The root finder returns all complex roots by multiplicity. -/
structure RootFinder.FindsRoots (finder : RootFinder K ℂ) : Prop where
  /-- At least two coefficients, the last one not zero, have their roots found. -/
  roots_ok : ∀ {c : Array K}, 2 ≤ c.size → c.getD (c.size - 1) 0 ≠ 0 →
    ∃ roots, finder c = .ok roots ∧ (roots : Multiset ℂ) = (vectorPolynomial c).aroots ℂ

/-- The roots of a trimmed value are the complex roots of the polynomial of its coefficients. -/
theorem RootFinder.FindsRoots.exists_roots [BEq K] [LawfulBEq K] {finder : RootFinder K ℂ}
    (hf : finder.FindsRoots) {a : Poly K} (ha : a.Trimmed) :
    ∃ roots, a.roots finder = .ok roots ∧ (roots : Multiset ℂ) = a.toPolynomial.aroots ℂ := by
  have hsize := ha.size_coef
  by_cases hlow : a.coef.size < 2
  · have hconstant : a.toPolynomial.natDegree = 0 := by omega
    refine ⟨[], if_pos hlow, ?_⟩
    rw [eq_C_of_natDegree_eq_zero hconstant, aroots_C]
    rfl
  · have hlast : a.coef.getD (a.coef.size - 1) 0 ≠ 0 := by
      rw [hsize, Nat.add_sub_cancel, ← Poly.coeff_toPolynomial]
      refine leadingCoeff_ne_zero.mpr fun hzero => ?_
      rw [hzero, natDegree_zero] at hsize
      omega
    rw [Poly.roots, if_neg hlow]
    exact hf.roots_ok (by omega) hlast

/-- The roots found in a region that is its own reflection in the real axis are stored as a real
product of linear factors. -/
theorem RootFinder.FindsRoots.exists_product {finder : RootFinder ℝ ℂ} (hf : finder.FindsRoots)
    {a : Poly ℝ} (ha : a.Trimmed) {p : ℂ → Prop} [DecidablePred p]
    (hp : ∀ r, p (starRingEnd ℂ r) ↔ p r) (s : String) :
    ∃ roots product, a.roots finder = .ok roots ∧
      roots.length = (a.toPolynomial.aroots ℂ).card ∧
      (roots.filter fun r => decide (p r)).length = ((a.toPolynomial.aroots ℂ).filter p).card ∧
      polyOfRoots (roots.filter fun r => decide (p r)) s = .real product ∧
      product.IsOrdinary ∧ product.symbol = s ∧
      product.toPolynomial.map (algebraMap ℝ ℂ) =
        (((a.toPolynomial.aroots ℂ).filter p).map fun r => X - C r).prod := by
  obtain ⟨roots, hroots, hall⟩ := hf.exists_roots ha
  have hregion : ((roots.filter fun r => decide (p r) : List ℂ) : Multiset ℂ) =
      (a.toPolynomial.aroots ℂ).filter p := by
    rw [← hall, Multiset.filter_coe]
  have hconj := filter_aroots_map_conj a.toPolynomial hp
  rw [← hregion] at hconj
  obtain ⟨product, hproduct, hordinary, hsymbol, hmap⟩ := exists_polyOfRoots hconj s
  refine ⟨roots, product, hroots, ?_, ?_, hproduct, hordinary, hsymbol, ?_⟩
  · rw [← hall, Multiset.coe_card]
  · rw [← hregion, Multiset.coe_card]
  · rw [hmap, hregion]

variable (K) in
/-- The root finder that returns all complex roots. -/
noncomputable def exactRoots : RootFinder K ℂ := fun c => .ok ((vectorPolynomial c).aroots ℂ).toList

/-- There is an exact root finder. -/
theorem exactRoots_findsRoots : (exactRoots K).FindsRoots where
  roots_ok _ _ := ⟨_, rfl, Multiset.coe_toList _⟩

end PolynomialEquations
