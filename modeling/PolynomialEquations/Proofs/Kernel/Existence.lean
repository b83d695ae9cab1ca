import PolynomialEquations.Proofs.Kernel.Exact
import Mathlib.Analysis.InnerProductSpace.PiL2
import Mathlib.Analysis.InnerProductSpace.Projection.FiniteDimensional
import Mathlib.Analysis.Normed.Lp.Matrix
import Mathlib.LinearAlgebra.Matrix.NonsingularInverse
import Mathlib.LinearAlgebra.Matrix.Rank

/-!
# Exact kernels exist

Over the real and the complex numbers there are kernels that keep every exact contract: a square
system that is not singular is solved by the inverse matrix, the closest vectors by orthogonal
projections, and every subspace has an orthonormal basis.
-/

namespace PolynomialEquations

variable {K : Type} [RCLike K]

/-- A linear map between spaces of finite dimension has a shortest vector among those that it maps
closest to a given point. -/
theorem exists_shortest_closest {E F : Type} [NormedAddCommGroup E] [InnerProductSpace K E]
    [FiniteDimensional K E] [NormedAddCommGroup F] [InnerProductSpace K F]
    (T : E →ₗ[K] F) (b : F) :
    ∃ v, (∀ u, ‖T v - b‖ ≤ ‖T u - b‖) ∧ ∀ u, ‖T u - b‖ = ‖T v - b‖ → ‖v‖ ≤ ‖u‖ := by
  let p := T.range.starProjection b
  obtain ⟨u₀, hu₀⟩ : p ∈ T.range := T.range.starProjection_apply_mem b
  let v := u₀ - T.ker.starProjection u₀
  have hTv : T v = p := by
    have hker : T (T.ker.starProjection u₀) = 0 := T.ker.starProjection_apply_mem u₀
    rw [map_sub, hu₀, hker, sub_zero]
  have hv : v ∈ T.kerᗮ := Submodule.sub_starProjection_mem_orthogonal u₀
  -- the range and its complement split every residual
  have hsplit : ∀ u, ‖T u - b‖ * ‖T u - b‖ =
      ‖T u - p‖ * ‖T u - p‖ + ‖p - b‖ * ‖p - b‖ := by
    intro u
    have hrange : T u - p ∈ T.range := sub_mem (LinearMap.mem_range_self T u) ⟨u₀, hu₀⟩
    have horth : p - b ∈ T.rangeᗮ := by
      rw [← neg_sub]
      exact neg_mem (Submodule.sub_starProjection_mem_orthogonal b)
    rw [← sub_add_sub_cancel (T u) p b]
    exact norm_add_sq_eq_norm_sq_add_norm_sq_of_inner_eq_zero _ _
      (Submodule.inner_right_of_mem_orthogonal hrange horth)
  have hresidual : ‖T v - b‖ = ‖p - b‖ := by rw [hTv]
  refine ⟨v, fun u => ?_, fun u hu => ?_⟩
  · rw [hresidual]
    refine abs_le_of_sq_le_sq' ?_ (norm_nonneg _) |>.2
    nlinarith [hsplit u, mul_self_nonneg ‖T u - p‖]
  · have hTu : T u = p := by
      have hu' := hsplit u
      rw [hu, hresidual] at hu'
      have hnorm : ‖T u - p‖ = 0 := by nlinarith [norm_nonneg (T u - p)]
      rwa [norm_eq_zero, sub_eq_zero] at hnorm
    have hker : u - v ∈ T.ker := by rw [LinearMap.mem_ker, map_sub, hTu, hTv, sub_self]
    have hpythagoras : ‖u‖ * ‖u‖ = ‖v‖ * ‖v‖ + ‖u - v‖ * ‖u - v‖ := by
      conv_lhs => rw [← add_sub_cancel v u]
      exact norm_add_sq_eq_norm_sq_add_norm_sq_of_inner_eq_zero _ _
        (Submodule.inner_left_of_mem_orthogonal hker hv)
    refine abs_le_of_sq_le_sq' ?_ (norm_nonneg _) |>.2
    nlinarith [mul_self_nonneg ‖u - v‖]

/-- The norm of the coordinates of a stored vector is its 2-norm. -/
theorem norm_coordinates {n : ℕ} {v : Array K} (hv : v.size = n) :
    ‖WithLp.toLp 2 (coordinates n v)‖ = euclideanNorm v := by
  rw [EuclideanSpace.norm_eq, euclideanNorm_eq_sqrt, hv,
    ← Fin.sum_univ_eq_sum_range (fun i => ‖v.getD i 0‖ ^ 2)]
  rfl

/-- The residual of a stored vector is a distance between coordinate vectors. -/
theorem norm_toLpLin_sub (S : Mat K) (rhs v : Array K) :
    ‖Matrix.toLpLin 2 2 (S.toMatrix S.rows S.cols) (WithLp.toLp 2 (coordinates S.cols v)) -
      WithLp.toLp 2 (coordinates S.rows rhs)‖ = residualNorm S rhs v := by
  rw [EuclideanSpace.norm_eq, residualNorm,
    ← Fin.sum_univ_eq_sum_range (fun i => ‖(S.mulVec v).getD i 0 - rhs.getD i 0‖ ^ 2)]
  congr 1
  refine Finset.sum_congr rfl fun i _ => ?_
  have hentry : (S.mulVec v).getD i 0 =
      (S.toMatrix S.rows S.cols).mulVec (coordinates S.cols v) i := by
    rw [← Mat.coordinates_mulVec, coordinates_apply]
  rw [hentry]
  rfl

/-- Every system of linear equations has a least squares solution. -/
theorem exists_isLeastSquares (S : Mat K) (rhs : Array K) : ∃ v, IsLeastSquares S rhs v := by
  obtain ⟨v, hclosest, hshortest⟩ := exists_shortest_closest
    (Matrix.toLpLin 2 2 (S.toMatrix S.rows S.cols)) (WithLp.toLp 2 (coordinates S.rows rhs))
  have hsize : (Array.ofFn v.ofLp).size = S.cols := Array.size_ofFn
  have hstored : WithLp.toLp 2 (coordinates S.cols (Array.ofFn v.ofLp)) = v := by
    rw [coordinates_ofFn]
  refine ⟨Array.ofFn v.ofLp, hsize, fun u _ => ?_, fun u hu heq => ?_⟩
  · rw [← norm_toLpLin_sub, ← norm_toLpLin_sub, hstored]
    exact hclosest _
  · rw [← norm_coordinates hsize, ← norm_coordinates hu, hstored]
    apply hshortest
    rw [← norm_toLpLin_sub, ← norm_toLpLin_sub, hstored] at heq
    exact heq

/-- A square system that is not singular has a solution. -/
theorem exists_mulVec_eq {S : Mat K} {rhs : Array K} (hsquare : S.rows = S.cols)
    (hrhs : rhs.size = S.rows) (hS : ¬S.IsSingular) :
    ∃ v : Array K, v.size = S.cols ∧ S.mulVec v = rhs := by
  let M := S.toMatrix S.rows S.rows
  let v := Array.ofFn (M⁻¹.mulVec (coordinates S.rows rhs))
  have hdet : IsUnit M.det := isUnit_iff_ne_zero.mpr hS
  have hsize : v.size = S.rows := Array.size_ofFn
  refine ⟨v, hsize.trans hsquare, eq_of_coordinates_eq (Mat.size_mulVec S v) hrhs ?_⟩
  rw [Mat.coordinates_mulVec, ← hsquare, coordinates_ofFn, Matrix.mulVec_mulVec,
    Matrix.mul_nonsing_inv _ hdet, Matrix.one_mulVec]

/-- The columns of `N` are an orthonormal basis of the kernel of `A`. -/
structure IsOrthonormalKernelBasis (A N : Mat K) : Prop extends IsKernelBasis A N where
  /-- The columns have length one and are orthogonal to each other. -/
  orthonormal : Orthonormal K fun j => WithLp.toLp 2 (N.column A.cols j)

/-- The kernel of every matrix has an orthonormal basis. -/
theorem exists_isOrthonormalKernelBasis (A : Mat K) : ∃ N, IsOrthonormalKernelBasis A N := by
  let T := Matrix.toLpLin 2 2 (A.toMatrix A.rows A.cols)
  let b := stdOrthonormalBasis K T.ker
  let N := Mat.ofFn A.cols (Module.finrank K T.ker) fun i j =>
    if h : i < A.cols ∧ j < Module.finrank K T.ker then
      (b ⟨j, h.2⟩ : EuclideanSpace K (Fin A.cols)).ofLp ⟨i, h.1⟩ else 0
  let e := WithLp.linearEquiv 2 K (Fin A.cols → K)
  have hcolumn : ∀ j, N.column A.cols j = e (b j) := by
    intro j
    funext i
    have hij : (i : ℕ) < A.cols ∧ (j : ℕ) < Module.finrank K T.ker := ⟨i.isLt, j.isLt⟩
    rw [Mat.column, Mat.get_ofFn _ hij.1 hij.2, dif_pos hij]
    rfl
  have hcolumns : N.column A.cols = (e.toLinearMap ∘ₗ T.ker.subtype) ∘ b := funext hcolumn
  have hker : T.ker.map e.toLinearMap = A.kernel := by
    ext u
    rw [Submodule.mem_map_equiv]
    exact (WithLp.linearEquiv 2 K (Fin A.rows → K)).symm.map_eq_zero_iff
  refine ⟨N, ⟨⟨rfl, ?_, ?_⟩, ?_⟩⟩
  · rw [hcolumns]
    refine b.orthonormal.linearIndependent.map' _ (LinearMap.ker_eq_bot.mpr ?_)
    exact e.injective.comp T.ker.injective_subtype
  · have hrange : Set.range (N.column A.cols) =
        (e.toLinearMap ∘ₗ T.ker.subtype) '' Set.range b :=
      (congrArg Set.range hcolumns).trans (Set.range_comp _ _)
    rw [hrange, ← Submodule.map_span, ← b.coe_toBasis, b.toBasis.span_eq,
      Submodule.map_comp, Submodule.map_top, Submodule.range_subtype, hker]
  · have hlift : (fun j => WithLp.toLp 2 (N.column A.cols j)) =
        fun j => (b j : EuclideanSpace K (Fin A.cols)) := by
      funext j
      rw [hcolumn]
      rfl
    rw [hlift]
    exact b.orthonormal.comp_linearIsometry T.ker.subtypeₗᵢ

open Classical in
/-- Kernels of linear algebra that compute exactly. -/
noncomputable def exactKernels (K : Type) [RCLike K] : LinearKernels K where
  solve S rhs :=
    if h : ¬S.IsSingular ∧ ∃ v : Array K, v.size = S.cols ∧ S.mulVec v = rhs then .ok h.2.choose
    else .error .singular
  leastSquares S rhs := .ok (exists_isLeastSquares S rhs).choose
  rank S := .ok (S.toMatrix S.rows S.cols).rank
  nullBasis A := .ok (exists_isOrthonormalKernelBasis A).choose

/-- The exact kernels solve systems of linear equations exactly. -/
theorem exactKernels_solvesExactly : (exactKernels K).SolvesExactly where
  solve_ok hsquare hrhs hS :=
    ⟨_, dif_pos ⟨hS, exists_mulVec_eq hsquare hrhs hS⟩,
      (exists_mulVec_eq hsquare hrhs hS).choose_spec⟩
  solve_error _ _ hS := ⟨.singular, dif_neg fun h => h.1 hS⟩
  leastSquares_ok _ := ⟨_, rfl, (exists_isLeastSquares _ _).choose_spec⟩

/-- The exact kernels solve least squares problems exactly. -/
theorem exactKernels_fitsExactly : (exactKernels K).FitsExactly :=
  ⟨exactKernels_solvesExactly.leastSquares_ok⟩

/-- The exact kernels find kernels of matrices exactly. -/
theorem exactKernels_spansKernels : (exactKernels K).SpansKernels where
  nullBasis_ok _ _ :=
    ⟨_, rfl, (exists_isOrthonormalKernelBasis _).choose_spec.toIsKernelBasis⟩

/-- The exact kernels find ranks of matrices exactly. -/
theorem exactKernels_ranksExactly : (exactKernels K).RanksExactly where
  rank_ok _ _ := rfl

end PolynomialEquations
