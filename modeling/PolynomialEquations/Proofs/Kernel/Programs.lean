import PolynomialEquations.Kernel.Basic
import PolynomialEquations.Proofs.Matrix.Entries
import Mathlib.LinearAlgebra.AffineSpace.AffineSubspace.Basic

/-!
# What a solver of linear programs promises

A solver finds an optimal point of every program that is well shaped, has a feasible point and
keeps its cost above some bound. Such a program has an optimal point. Without a sign condition the
cost of the system of equations is constant. And when dropping one sign condition allows a point
that breaks it and costs no more than any feasible point, the variable of this condition may be
set to zero; otherwise the condition may be dropped.
-/

namespace PolynomialEquations

section Attainment

variable {V ι : Type} [AddCommGroup V] [Module ℝ V] {L : AffineSubspace ℝ V} {f : ι → V →ₗ[ℝ] ℝ}
  {s : Finset ι}

/-- The points of an affine space at which finitely many linear functions are not negative. -/
def nonnegativePart (L : AffineSubspace ℝ V) (f : ι → V →ₗ[ℝ] ℝ) (s : Finset ι) : Set V :=
  {v | v ∈ L ∧ ∀ i ∈ s, 0 ≤ f i v}

/-- The solutions of a linear equation. -/
def solutionSpace {W : Type} [AddCommGroup W] [Module ℝ W] (T : V →ₗ[ℝ] W) (b : W) :
    AffineSubspace ℝ V where
  carrier := {v | T v = b}
  smul_vsub_vadd_mem' t x y z hx hy hz := by
    simp only [Set.mem_ofPred_eq, vsub_eq_sub, vadd_eq_add, map_add, map_smul, map_sub]
      at hx hy hz ⊢
    rw [hx, hy, hz, sub_self, smul_zero, zero_add]

/-- A linear function at a point of a line. -/
theorem map_lineMap_eq (c : V →ₗ[ℝ] ℝ) (x y : V) (t : ℝ) :
    c (AffineMap.lineMap x y t) = (1 - t) * c x + t * c y := by
  rw [AffineMap.lineMap_apply_module, map_add, map_smul, map_smul, smul_eq_mul, smul_eq_mul]

/-- A linear function that is bounded below on an affine space is least at each of its points. -/
theorem le_of_bounded_on_affine {c : V →ₗ[ℝ] ℝ} {B : ℝ} (hB : ∀ v ∈ L, B ≤ c v) {x y : V}
    (hx : x ∈ L) (hy : y ∈ L) : c x ≤ c y := by
  by_contra hlt
  have hne : c y - c x ≠ 0 := by linarith
  -- the point of the line where the function is less than the bound by one
  let t := (B - 1 - c x) / (c y - c x)
  have hvalue : c (AffineMap.lineMap x y t) = B - 1 := by
    have ht : t * (c y - c x) = B - 1 - c x := div_mul_cancel₀ _ hne
    rw [map_lineMap_eq]
    linarith
  have hbound := hB _ (AffineMap.lineMap_mem t hx hy)
  rw [hvalue] at hbound
  linarith

/-- On the way from a point where a linear function is not negative to one where it is negative, it
vanishes at a point where each function that is not negative at both ends is not negative, and where
a function that does not increase is not larger than at the start. -/
theorem exists_crossing {g c : V →ₗ[ℝ] ℝ} {x y : V} (hx : x ∈ nonnegativePart L f s)
    (hy : y ∈ nonnegativePart L f s) (hgx : 0 ≤ g x) (hgy : g y < 0) (hc : c y ≤ c x) :
    ∃ z ∈ nonnegativePart L f s, g z = 0 ∧ c z ≤ c x := by
  have hwidth : 0 < g x - g y := by linarith
  let t := g x / (g x - g y)
  have ht₀ : 0 ≤ t := div_nonneg hgx hwidth.le
  have ht₁ : 0 ≤ 1 - t := by
    rw [sub_nonneg, div_le_one hwidth]
    linarith
  refine ⟨AffineMap.lineMap x y t, ⟨AffineMap.lineMap_mem t hx.1 hy.1, fun i hi => ?_⟩, ?_, ?_⟩
  · rw [map_lineMap_eq]
    exact add_nonneg (mul_nonneg ht₁ (hx.2 i hi)) (mul_nonneg ht₀ (hy.2 i hi))
  · have ht : t * (g x - g y) = g x := div_mul_cancel₀ _ hwidth.ne'
    rw [map_lineMap_eq]
    linarith
  · rw [map_lineMap_eq]
    nlinarith [mul_nonneg ht₀ (sub_nonneg.mpr hc)]

theorem mem_nonnegativePart_insert [DecidableEq ι] {j : ι} {v : V} :
    v ∈ nonnegativePart L f (insert j s) ↔ v ∈ nonnegativePart L f s ∧ 0 ≤ f j v := by
  simp only [nonnegativePart, Set.mem_ofPred_eq, Finset.forall_mem_insert]
  tauto

/-- The points of an affine space where a linear function vanishes. -/
def face (L : AffineSubspace ℝ V) (g : V →ₗ[ℝ] ℝ) : AffineSubspace ℝ V :=
  L ⊓ (LinearMap.ker g).toAffineSubspace

theorem mem_nonnegativePart_face {g : V →ₗ[ℝ] ℝ} {v : V} :
    v ∈ nonnegativePart (face L g) f s ↔ v ∈ nonnegativePart L f s ∧ g v = 0 := by
  simp only [nonnegativePart, Set.mem_ofPred_eq, face, AffineSubspace.mem_inf_iff,
    Submodule.mem_toAffineSubspace, LinearMap.mem_ker]
  tauto

/-- A linear function that is bounded below where finitely many linear functions on an affine space
are not negative has a least value there. -/
theorem exists_minimum [DecidableEq ι] (f : ι → V →ₗ[ℝ] ℝ) (s : Finset ι) {c : V →ₗ[ℝ] ℝ} {B : ℝ}
    (hne : (nonnegativePart L f s).Nonempty) (hB : ∀ v ∈ nonnegativePart L f s, B ≤ c v) :
    ∃ x ∈ nonnegativePart L f s, ∀ y ∈ nonnegativePart L f s, c x ≤ c y := by
  induction s using Finset.induction_on generalizing L with
  | empty =>
    obtain ⟨x, hx⟩ := hne
    have hbound : ∀ v ∈ L, B ≤ c v := fun v hv => hB v ⟨hv, by simp⟩
    exact ⟨x, hx, fun y hy => le_of_bounded_on_affine hbound hx.1 hy.1⟩
  | insert j s hj ih =>
    obtain ⟨x, hx⟩ := hne
    by_cases hlow : ∃ y ∈ nonnegativePart L f s, f j y < 0 ∧
        ∀ x ∈ nonnegativePart L f (insert j s), c y ≤ c x
    · -- every feasible point may be exchanged for one where the last function vanishes
      obtain ⟨y, hy, hneg, hle⟩ := hlow
      have hcross : ∀ x ∈ nonnegativePart L f (insert j s),
          ∃ z ∈ nonnegativePart (face L (f j)) f s, c z ≤ c x := by
        intro x hx
        obtain ⟨hxs, hxj⟩ := mem_nonnegativePart_insert.mp hx
        obtain ⟨z, hz, hzero, hzx⟩ := exists_crossing hxs hy hxj hneg (hle x hx)
        exact ⟨z, mem_nonnegativePart_face.mpr ⟨hz, hzero⟩, hzx⟩
      have hwithin : ∀ z ∈ nonnegativePart (face L (f j)) f s,
          z ∈ nonnegativePart L f (insert j s) := by
        intro z hz
        obtain ⟨hzs, hzero⟩ := mem_nonnegativePart_face.mp hz
        exact mem_nonnegativePart_insert.mpr ⟨hzs, hzero.ge⟩
      obtain ⟨z, hz, -⟩ := hcross x hx
      obtain ⟨m, hm, hmin⟩ := ih ⟨z, hz⟩ fun v hv => hB v (hwithin v hv)
      refine ⟨m, hwithin m hm, fun v hv => ?_⟩
      obtain ⟨z, hz, hzv⟩ := hcross v hv
      exact (hmin z hz).trans hzv
    · -- a point that breaks the last condition costs more than some feasible point
      push Not at hlow
      have hbound : ∀ v ∈ nonnegativePart L f s, B ≤ c v := by
        intro v hv
        by_cases hneg : f j v < 0
        · obtain ⟨u, hu, huv⟩ := hlow v hv hneg
          exact (hB u hu).trans huv.le
        · exact hB v (mem_nonnegativePart_insert.mpr ⟨hv, not_lt.mp hneg⟩)
      obtain ⟨m, hm, hmin⟩ := ih ⟨x, (mem_nonnegativePart_insert.mp hx).1⟩ hbound
      have hmj : 0 ≤ f j m := by
        by_contra hneg
        obtain ⟨u, hu, hum⟩ := hlow m hm (not_le.mp hneg)
        exact absurd (hmin u (mem_nonnegativePart_insert.mp hu).1) (not_le.mpr hum)
      exact ⟨m, mem_nonnegativePart_insert.mpr ⟨hm, hmj⟩, fun v hv =>
        hmin v (mem_nonnegativePart_insert.mp hv).1⟩

end Attainment

namespace LinearProgram

variable (p : LinearProgram ℝ)

/-- The cost of a point. -/
noncomputable def costOf (v : Array ℝ) : ℝ :=
  ∑ i ∈ Finset.range p.matrix.cols, p.cost.getD i 0 * v.getD i 0

/-- The sizes of the parts fit together. -/
structure IsWellShaped : Prop where
  /-- Every variable has a cost. -/
  cost_size : p.cost.size = p.matrix.cols
  /-- The matrix is filled with entries. -/
  entries_size : p.matrix.entries.size = p.matrix.rows * p.matrix.cols
  /-- Every constraint has a right side. -/
  rhs_size : p.rhs.size = p.matrix.rows
  /-- The free variables are variables. -/
  free_le : p.free ≤ p.matrix.cols

/-- A point that satisfies the constraints. -/
structure IsFeasible (v : Array ℝ) : Prop where
  /-- Every variable has a value. -/
  size_eq : v.size = p.matrix.cols
  /-- The equations hold. -/
  mulVec_eq : p.matrix.mulVec v = p.rhs
  /-- The variables that must not be negative are not. -/
  nonneg : ∀ i, p.free ≤ i → 0 ≤ v.getD i 0

/-- A program with sizes that fit together, a feasible point, and costs that are bounded below. -/
structure IsWellPosed : Prop where
  /-- The sizes fit together. -/
  wellShaped : p.IsWellShaped
  /-- There is a feasible point. -/
  feasible : ∃ v, p.IsFeasible v
  /-- The cost of a feasible point is bounded below. -/
  bounded : ∃ B, ∀ v, p.IsFeasible v → B ≤ p.costOf v

/-- A feasible point of least cost, with its cost. -/
structure IsOptimum (best : Optimum ℝ) : Prop where
  /-- The point is feasible. -/
  feasible : p.IsFeasible best.point
  /-- The value is the cost of the point. -/
  value_eq : best.value = p.costOf best.point
  /-- No feasible point costs less. -/
  minimal : ∀ v, p.IsFeasible v → best.value ≤ p.costOf v

section Attained

/-- The cost as a linear function. -/
noncomputable def costFunction : (Fin p.matrix.cols → ℝ) →ₗ[ℝ] ℝ :=
  ∑ i : Fin p.matrix.cols, p.cost.getD i 0 • LinearMap.proj i

theorem costOf_eq (v : Array ℝ) : p.costOf v = p.costFunction (coordinates p.matrix.cols v) := by
  simp only [costFunction, LinearMap.sum_apply, LinearMap.smul_apply, LinearMap.proj_apply,
    smul_eq_mul]
  exact (Fin.sum_univ_eq_sum_range (fun i => p.cost.getD i 0 * v.getD i 0) _).symm

/-- The variables that must not be negative. -/
def signed : Finset (Fin p.matrix.cols) := Finset.univ.filter fun i => p.free ≤ i.val

/-- The points that solve the equations and whose signed variables are not negative. -/
def feasiblePart : Set (Fin p.matrix.cols → ℝ) :=
  nonnegativePart
    (solutionSpace (p.matrix.toMatrix p.matrix.rows p.matrix.cols).mulVecLin
      (coordinates p.matrix.rows p.rhs)) (fun i => LinearMap.proj i) p.signed

variable {p}

/-- A stored point satisfies the constraints exactly when its coordinates do. -/
theorem IsWellShaped.isFeasible_iff (h : p.IsWellShaped) {v : Array ℝ}
    (hv : v.size = p.matrix.cols) :
    p.IsFeasible v ↔ coordinates p.matrix.cols v ∈ p.feasiblePart := by
  have hequations : p.matrix.mulVec v = p.rhs ↔
      (p.matrix.toMatrix p.matrix.rows p.matrix.cols).mulVecLin (coordinates p.matrix.cols v) =
        coordinates p.matrix.rows p.rhs := by
    rw [Matrix.mulVecLin_apply, ← Mat.coordinates_mulVec]
    exact ⟨congrArg _, eq_of_coordinates_eq (Mat.size_mulVec _ _) h.rhs_size⟩
  constructor
  · rintro ⟨-, hmul, hnonneg⟩
    exact ⟨hequations.mp hmul, fun i hi => hnonneg i (Finset.mem_filter.mp hi).2⟩
  · rintro ⟨hmem, hnonneg⟩
    refine ⟨hv, hequations.mpr hmem, fun i hi => ?_⟩
    by_cases hin : i < p.matrix.cols
    · exact hnonneg ⟨i, hin⟩ (Finset.mem_filter.mpr ⟨Finset.mem_univ _, hi⟩)
    · rw [getD_of_size_le (by omega)]

/-- Every well-posed program has an optimal point. -/
theorem IsWellPosed.exists_optimum (h : p.IsWellPosed) : ∃ best, p.IsOptimum best := by
  have hstored : ∀ x ∈ p.feasiblePart, p.IsFeasible (Array.ofFn x) := by
    intro x hx
    apply (h.wellShaped.isFeasible_iff Array.size_ofFn).mpr
    rwa [coordinates_ofFn]
  obtain ⟨v, hv⟩ := h.feasible
  obtain ⟨B, hB⟩ := h.bounded
  have hbound : ∀ x ∈ p.feasiblePart, B ≤ p.costFunction x := by
    intro x hx
    have hle := hB _ (hstored x hx)
    rwa [costOf_eq, coordinates_ofFn] at hle
  have hne : p.feasiblePart.Nonempty := ⟨_, (h.wellShaped.isFeasible_iff hv.size_eq).mp hv⟩
  obtain ⟨x, hx, hmin⟩ := exists_minimum _ _ hne hbound
  refine ⟨⟨Array.ofFn x, p.costOf (Array.ofFn x)⟩, hstored x hx, rfl, fun u hu => ?_⟩
  rw [costOf_eq, costOf_eq, coordinates_ofFn]
  exact hmin _ ((h.wellShaped.isFeasible_iff hu.size_eq).mp hu)

end Attained

end LinearProgram

/-- The solver finds an optimal point of every well-posed program. -/
structure ProgramSolver.SolvesPrograms (solver : ProgramSolver ℝ) : Prop where
  /-- A program that is well shaped, feasible and bounded is solved. -/
  solve_ok : ∀ {p : LinearProgram ℝ}, p.IsWellPosed → ∃ best, solver p = .ok best ∧ p.IsOptimum best

/-- The solver answers every well-posed program as the other one does. -/
def ProgramSolver.AgreesWith (solver other : ProgramSolver ℝ) : Prop :=
  ∀ p : LinearProgram ℝ, p.IsWellPosed → solver p = other p

open Classical in
/-- A solver that finds an optimal point wherever there is one. -/
noncomputable def exactPrograms : ProgramSolver ℝ := fun p =>
  if h : ∃ best, p.IsOptimum best then .ok h.choose else .error .breakdown

/-- There is an exact solver of linear programs. -/
theorem exactPrograms_solvesPrograms : exactPrograms.SolvesPrograms where
  solve_ok h := ⟨_, dif_pos h.exists_optimum, h.exists_optimum.choose_spec⟩

end PolynomialEquations
