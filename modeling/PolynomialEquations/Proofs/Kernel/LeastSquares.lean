import PolynomialEquations.Proofs.Kernel.Existence
import Mathlib.Analysis.InnerProductSpace.Convex

/-!
# There is only one least squares solution

Halfway between two vectors that come equally close to a right side lies a vector that comes at
least as close, and it is shorter than two different vectors of one length. So the shortest of the
closest vectors is unique. For a square system that is not singular it is the solution. Whatever the
vectors stand for, what the solution stands for is then the shortest of the closest, and any change
that keeps misfits and lengths carries it over.
-/

namespace PolynomialEquations

variable {K : Type} [RCLike K]

/-- A closest vector that is no longer than the shortest one is the shortest one. -/
theorem eq_of_closest_of_norm_le {E F : Type} [NormedAddCommGroup E] [InnerProductSpace K E]
    [NormedAddCommGroup F] [InnerProductSpace K F] {T : E →ₗ[K] F} {b : F} {u v : E}
    (hclosest : ∀ w, ‖T v - b‖ ≤ ‖T w - b‖)
    (hshortest : ∀ w, ‖T w - b‖ = ‖T v - b‖ → ‖v‖ ≤ ‖w‖)
    (hu : ‖T u - b‖ = ‖T v - b‖) (hle : ‖u‖ ≤ ‖v‖) : u = v := by
  let _ : InnerProductSpace ℝ E := InnerProductSpace.rclikeToReal K E
  have hnorm : ‖u‖ = ‖v‖ := le_antisymm hle (hshortest u hu)
  let m : E := (2 : K)⁻¹ • (u + v)
  have htwo : ‖(2 : K)⁻¹‖ = 2⁻¹ := by rw [norm_inv, RCLike.norm_ofNat]
  have hclose : ‖T m - b‖ ≤ ‖T v - b‖ := by
    have hsplit : T m - b = (2 : K)⁻¹ • ((T u - b) + (T v - b)) := by
      have hb : b = (2 : K)⁻¹ • (b + b) := by
        rw [← two_smul K b, smul_smul, inv_mul_cancel₀ two_ne_zero, one_smul]
      conv_lhs => rw [hb]
      rw [map_smul, map_add, ← smul_sub]
      congr 1
      abel
    calc ‖T m - b‖ = 2⁻¹ * ‖(T u - b) + (T v - b)‖ := by rw [hsplit, norm_smul, htwo]
      _ ≤ 2⁻¹ * (‖T u - b‖ + ‖T v - b‖) :=
        mul_le_mul_of_nonneg_left (norm_add_le _ _) (by norm_num)
      _ = ‖T v - b‖ := by rw [hu]; ring
  have hlong : ‖v‖ ≤ 2⁻¹ * ‖u + v‖ := by
    have hm := hshortest m (le_antisymm hclose (hclosest m))
    rwa [norm_smul, htwo] at hm
  refine eq_of_norm_eq_of_norm_add_eq hnorm (le_antisymm (norm_add_le u v) ?_)
  linarith

/-- A vector that comes as close as the least squares solution and is no longer is the least squares
solution. -/
theorem IsLeastSquares.eq_of_norm_le {S : Mat K} {rhs u v : Array K}
    (hv : IsLeastSquares S rhs v) (hu : u.size = S.cols)
    (hclose : residualNorm S rhs u = residualNorm S rhs v)
    (hle : (euclideanNorm u : ℝ) ≤ euclideanNorm v) : u = v := by
  let T := Matrix.toLpLin 2 2 (S.toMatrix S.rows S.cols)
  let place (w : Array K) : EuclideanSpace K (Fin S.cols) := WithLp.toLp 2 (coordinates S.cols w)
  have hstored : ∀ x, ∃ w : Array K, w.size = S.cols ∧ place w = x := fun x =>
    ⟨Array.ofFn x.ofLp, Array.size_ofFn, by simp only [place, coordinates_ofFn]⟩
  have hresidual : ∀ w, ‖T (place w) - WithLp.toLp 2 (coordinates S.rows rhs)‖ =
      residualNorm S rhs w := norm_toLpLin_sub S rhs
  have hplace : place u = place v := by
    refine eq_of_closest_of_norm_le (T := T) (b := WithLp.toLp 2 (coordinates S.rows rhs))
      (fun x => ?_) (fun x hx => ?_) ?_ ?_
    · obtain ⟨w, hw, rfl⟩ := hstored x
      rw [hresidual, hresidual]
      exact hv.residual_le w hw
    · obtain ⟨w, hw, rfl⟩ := hstored x
      rw [hresidual, hresidual] at hx
      rw [norm_coordinates hv.size_eq, norm_coordinates hw]
      exact hv.norm_le w hw hx
    · rw [hresidual, hresidual, hclose]
    · rwa [norm_coordinates hu, norm_coordinates hv.size_eq]
  exact eq_of_coordinates_eq hu hv.size_eq (congrArg WithLp.ofLp hplace)

/-- A matrix that is not singular maps different vectors to different vectors. -/
theorem Mat.eq_of_mulVec_eq {S : Mat K} {u v : Array K} (hsquare : S.rows = S.cols)
    (hS : ¬S.IsSingular) (hu : u.size = S.cols) (hv : v.size = S.cols)
    (h : S.mulVec u = S.mulVec v) : u = v := by
  have himage := congrArg (coordinates S.rows) h
  rw [Mat.coordinates_mulVec_of_eq rfl hsquare.symm,
    Mat.coordinates_mulVec_of_eq rfl hsquare.symm] at himage
  have hunit : IsUnit (S.toMatrix S.rows S.rows) :=
    (Matrix.isUnit_iff_isUnit_det _).mpr (isUnit_iff_ne_zero.mpr hS)
  exact eq_of_coordinates_eq (hu.trans hsquare.symm) (hv.trans hsquare.symm)
    (Matrix.mulVec_injective_of_isUnit hunit himage)

/-- The only solution of a system is its least squares solution. -/
theorem isLeastSquares_of_unique {S : Mat K} {rhs v : Array K} (hrhs : rhs.size = S.rows)
    (hv : v.size = S.cols) (hsolves : S.mulVec v = rhs)
    (hunique : ∀ u : Array K, u.size = S.cols → S.mulVec u = rhs → u = v) :
    IsLeastSquares S rhs v := by
  have hzero := (residualNorm_eq_zero_iff hrhs v).mpr hsolves
  refine ⟨hv, fun u _ => ?_, fun u hu hclose => ?_⟩
  · rw [hzero]
    exact Real.sqrt_nonneg _
  · rw [hzero, residualNorm_eq_zero_iff hrhs] at hclose
    rw [hunique u hu hclose]

section Best

variable {α : Type} {fits fits' : α → Prop} {misfit misfit' length : α → ℝ} {p q : α}

/-- Of the points that fit, `p` is the shortest of those with the least misfit, and the only one. -/
structure IsShortestClosest (fits : α → Prop) (misfit length : α → ℝ) (p : α) : Prop where
  /-- The point fits. -/
  fits_self : fits p
  /-- No other point comes closer. -/
  closest : ∀ q, fits q → misfit p ≤ misfit q
  /-- No point that comes as close is shorter. -/
  shortest : ∀ q, fits q → misfit q = misfit p → length p ≤ length q
  /-- No other point that comes as close is as short. -/
  unique : ∀ q, fits q → misfit q = misfit p → length q = length p → q = p

namespace IsShortestClosest

/-- There is only one such point. -/
theorem eq (hp : IsShortestClosest fits misfit length p)
    (hq : IsShortestClosest fits misfit length q) : p = q := by
  have hclose : misfit p = misfit q :=
    le_antisymm (hp.closest q hq.fits_self) (hq.closest p hp.fits_self)
  refine hq.unique p hp.fits_self hclose (le_antisymm ?_ ?_)
  · exact hp.shortest q hq.fits_self hclose.symm
  · exact hq.shortest p hp.fits_self hclose

/-- A change of points that undoes itself and keeps what fits, misfits and lengths carries the point
over. -/
theorem image (hp : IsShortestClosest fits misfit length p) {e : α → α}
    (he : Function.Involutive e) (hfits : ∀ q, fits' (e q) ↔ fits q)
    (hmisfit : ∀ q, misfit' (e q) = misfit q) (hlength : ∀ q, length (e q) = length q) :
    IsShortestClosest fits' misfit' length (e p) := by
  constructor
  case fits_self => exact (hfits p).mpr hp.fits_self
  case closest =>
    intro r hr
    obtain ⟨q, rfl⟩ := he.surjective r
    rw [hmisfit, hmisfit]
    exact hp.closest q ((hfits q).mp hr)
  case shortest =>
    intro r hr hclose
    obtain ⟨q, rfl⟩ := he.surjective r
    rw [hmisfit, hmisfit] at hclose
    rw [hlength, hlength]
    exact hp.shortest q ((hfits q).mp hr) hclose
  case unique =>
    intro r hr hclose hshort
    obtain ⟨q, rfl⟩ := he.surjective r
    rw [hmisfit, hmisfit] at hclose
    rw [hlength, hlength] at hshort
    rw [hp.unique q ((hfits q).mp hr) hclose hshort]

end IsShortestClosest

/-- When the vectors with one entry for every unknown stand for the points that fit, and residuals
and lengths are those of the points, the least squares solution stands for the shortest of the
closest points. -/
theorem IsLeastSquares.isShortestClosest {S : Mat K} {rhs v : Array K}
    (hv : IsLeastSquares S rhs v) (point : Array K → α)
    (hfits : ∀ u, u.size = S.cols → fits (point u))
    (hstored : ∀ q, fits q → ∃ u, u.size = S.cols ∧ point u = q)
    (hmisfit : ∀ u, u.size = S.cols → misfit (point u) = residualNorm S rhs u)
    (hlength : ∀ u, u.size = S.cols → length (point u) = euclideanNorm u) :
    IsShortestClosest fits misfit length (point v) := by
  constructor
  case fits_self => exact hfits v hv.size_eq
  case closest =>
    intro q hq
    obtain ⟨u, hu, rfl⟩ := hstored q hq
    rw [hmisfit v hv.size_eq, hmisfit u hu]
    exact hv.residual_le u hu
  case shortest =>
    intro q hq hclose
    obtain ⟨u, hu, rfl⟩ := hstored q hq
    rw [hmisfit v hv.size_eq, hmisfit u hu] at hclose
    rw [hlength v hv.size_eq, hlength u hu]
    exact hv.norm_le u hu hclose
  case unique =>
    intro q hq hclose hshort
    obtain ⟨u, hu, rfl⟩ := hstored q hq
    rw [hmisfit v hv.size_eq, hmisfit u hu] at hclose
    rw [hlength v hv.size_eq, hlength u hu] at hshort
    rw [hv.eq_of_norm_le hu hclose hshort.le]

end Best

end PolynomialEquations
