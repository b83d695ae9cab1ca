import Mathlib.Algebra.Polynomial.Splits
import Mathlib.Analysis.CStarAlgebra.Classes
import Mathlib.Analysis.Complex.Polynomial.Basic

/-!
# Roots that a reflection permutes

A reflection that maps a multiset to itself and exchanges two regions maps the elements in one
region to those in the other. So half of the elements lie in one region exactly when none lies
outside both, and then the elements of one region and their images are all there are. Complex
conjugation is such a reflection for the roots of a real polynomial, with one region in both places.
-/

namespace PolynomialEquations

open Polynomial

section Mirrored

variable {α : Type} {s : Multiset α} {σ : α → α} {p q : α → Prop} [DecidablePred p]
  [DecidablePred q]

/-- A reflection of a multiset maps its elements in one region to its elements in the other. -/
theorem filter_eq_map_filter (hs : s.map σ = s) (hσ : ∀ r ∈ s, q (σ r) ↔ p r) :
    s.filter q = (s.filter p).map σ := by
  calc s.filter q = (s.map σ).filter q := by rw [hs]
    _ = (s.filter (q ∘ σ)).map σ := Multiset.filter_map q σ s
    _ = (s.filter p).map σ := congrArg _ (Multiset.filter_congr hσ)

/-- A multiset that a reflection maps to itself, where the reflection exchanges two regions without
common points. -/
structure IsMirrored (s : Multiset α) (σ : α → α) (p q : α → Prop) : Prop where
  /-- The reflection permutes the elements. -/
  map_eq : s.map σ = s
  /-- The images that lie in the second region are those of the first region. -/
  mirror_iff : ∀ r ∈ s, q (σ r) ↔ p r
  /-- No element lies in both regions. -/
  disjoint : ∀ r ∈ s, q r → ¬p r

/-- The elements outside the first region include those in the second one. -/
theorem IsMirrored.map_filter_le (h : IsMirrored s σ p q) :
    (s.filter p).map σ ≤ s.filter fun r => ¬p r := by
  rw [← filter_eq_map_filter h.map_eq h.mirror_iff, Multiset.le_filter]
  refine ⟨Multiset.filter_le q s, fun r hr => ?_⟩
  obtain ⟨hmem, hq⟩ := Multiset.mem_filter.mp hr
  exact h.disjoint r hmem hq

/-- When every element lies in one of the regions, the elements of the first region and their images
are all elements. -/
theorem IsMirrored.filter_add_map (h : IsMirrored s σ p q) (hall : ∀ r ∈ s, p r ∨ q r) :
    s.filter p + (s.filter p).map σ = s := by
  have hrest : (s.filter fun r => ¬p r) = s.filter q :=
    Multiset.filter_congr fun r hr => ⟨(hall r hr).resolve_left, h.disjoint r hr⟩
  rw [← filter_eq_map_filter h.map_eq h.mirror_iff, ← hrest, Multiset.filter_add_not]

/-- Half of the elements lie in the first region exactly when every element lies in one of the
regions. -/
theorem IsMirrored.two_mul_card_iff (h : IsMirrored s σ p q) :
    2 * (s.filter p).card = s.card ↔ ∀ r ∈ s, p r ∨ q r := by
  constructor
  · intro hcard r hr
    by_contra houtside
    rw [not_or] at houtside
    have hsplit := congrArg Multiset.card (Multiset.filter_add_not p s)
    rw [Multiset.card_add] at hsplit
    have hequal : (s.filter p).map σ = s.filter fun r => ¬p r :=
      Multiset.eq_of_le_of_card_le h.map_filter_le (by rw [Multiset.card_map]; omega)
    rw [← filter_eq_map_filter h.map_eq h.mirror_iff] at hequal
    have hmem : r ∈ s.filter q := hequal ▸ Multiset.mem_filter.mpr ⟨hr, houtside.1⟩
    exact houtside.2 (Multiset.mem_filter.mp hmem).2
  · intro hall
    conv_rhs => rw [← h.filter_add_map hall]
    rw [Multiset.card_add, Multiset.card_map, two_mul]

end Mirrored

section Real

/-- The complex numbers are a domain. The instance has a name so that all statements about roots
refer to the same one. -/
instance isDomain_complex : IsDomain ℂ := inferInstance

/-- A real polynomial is the product of its linear factors over the complex numbers. -/
theorem map_eq_prod_aroots (A : ℝ[X]) : A.map (algebraMap ℝ ℂ) =
    C (A.leadingCoeff : ℂ) * ((A.aroots ℂ).map fun r => X - C r).prod := by
  conv_lhs => rw [(IsAlgClosed.splits (A.map (algebraMap ℝ ℂ))).eq_prod_roots, leadingCoeff_map]
  rfl

/-- Conjugation permutes the roots of a real polynomial. -/
theorem aroots_map_conj (A : ℝ[X]) : (A.aroots ℂ).map (starRingEnd ℂ) = A.aroots ℂ := by
  have hreal : (A.map (algebraMap ℝ ℂ)).map (starRingEnd ℂ) = A.map (algebraMap ℝ ℂ) := by
    ext n
    rw [coeff_map, coeff_map]
    exact Complex.conj_ofReal _
  rw [aroots_def, ← (IsAlgClosed.splits _).roots_map, hreal]

/-- Conjugation permutes the roots in a region that is its own reflection in the real axis. -/
theorem filter_aroots_map_conj (A : ℝ[X]) {p : ℂ → Prop} [DecidablePred p]
    (hp : ∀ r, p (starRingEnd ℂ r) ↔ p r) :
    ((A.aroots ℂ).filter p).map (starRingEnd ℂ) = (A.aroots ℂ).filter p :=
  (filter_eq_map_filter (aroots_map_conj A) fun r _ => hp r).symm

end Real

end PolynomialEquations
