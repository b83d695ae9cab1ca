import PolynomialEquations.Proofs.Equation.Bezout
import PolynomialEquations.Proofs.Matrix.Sylvester
import Mathlib.LinearAlgebra.Dimension.Constructions
import Mathlib.RingTheory.Polynomial.DegreeLT

/-!
# The kernel of the Sylvester matrix

A vector lies in the kernel of the Sylvester matrix of `a` and `b` exactly when its two segments
are one multiple of the cofactors of `a` and `b`. The degree of the multiplier is bounded by the
widths of the two blocks alone, and so is the dimension of the kernel.
-/

namespace PolynomialEquations

open Polynomial

section Pairs

variable {K : Type} [CommRing K]

/-- A vector stands for the zero polynomial exactly when it reads as zero everywhere. -/
theorem vectorPolynomial_eq_zero_iff (v : Array K) :
    vectorPolynomial v = 0 ↔ ∀ i, v.getD i 0 = 0 := by
  simp only [Polynomial.ext_iff, coeff_vectorPolynomial, coeff_zero]

/-- Reading a vector as a pair of polynomials and storing the pair gives the vector back. -/
theorem pairVector_vectorPolynomial {w₁ w₂ : ℕ} {v : Array K} (hv : v.size = w₁ + w₂) :
    pairVector w₁ w₂ (vectorPolynomial (v.extract 0 w₁))
      (vectorPolynomial (v.extract w₁ v.size)) = v := by
  refine eq_of_getD_eq ((size_pairVector _ _ _ _).trans hv.symm) fun i => ?_
  rw [pairVector, getD_ofFn]
  simp only [coeff_vectorPolynomial, getD_extract]
  by_cases hi : i < w₁ + w₂
  · rw [dif_pos hi]
    by_cases hleft : i < w₁
    · rw [if_pos hleft, if_pos (by omega), Nat.zero_add]
    · rw [if_neg hleft, if_pos (by omega), Nat.add_sub_cancel' (by omega)]
  · rw [dif_neg hi, getD_of_size_le (by omega)]

/-- A vector holds all coefficients of two polynomials: those of the first one at the exponents
below `w₁`, and behind them those of the second one at the exponents below `w₂`. -/
structure HoldsPair (w₁ w₂ : ℕ) (X Y : K[X]) (v : Array K) : Prop where
  /-- There is an entry for every exponent below the widths. -/
  size_eq : v.size = w₁ + w₂
  /-- The first entries stand for the first polynomial. -/
  left_eq : vectorPolynomial (v.extract 0 w₁) = X
  /-- The other entries stand for the second polynomial. -/
  right_eq : vectorPolynomial (v.extract w₁ v.size) = Y

/-- Storing two polynomials below the widths gives a vector that holds them. -/
theorem holdsPair_pairVector {w₁ w₂ : ℕ} {X Y : K[X]} (hX : X.degree < (w₁ : WithBot ℕ))
    (hY : Y.degree < (w₂ : WithBot ℕ)) : HoldsPair w₁ w₂ X Y (pairVector w₁ w₂ X Y) :=
  ⟨size_pairVector w₁ w₂ X Y, vectorPolynomial_pairVector_left w₂ Y hX,
    vectorPolynomial_pairVector_right w₁ X hY⟩

/-- No other vector holds them. -/
theorem HoldsPair.eq_pairVector {w₁ w₂ : ℕ} {X Y : K[X]} {v : Array K}
    (h : HoldsPair w₁ w₂ X Y v) : v = pairVector w₁ w₂ X Y := by
  rw [← h.left_eq, ← h.right_eq]
  exact (pairVector_vectorPolynomial h.size_eq).symm

/-- Polynomials that a vector holds lie below the widths. -/
theorem HoldsPair.degree_lt {w₁ w₂ : ℕ} {X Y : K[X]} {v : Array K} (h : HoldsPair w₁ w₂ X Y v) :
    X.degree < (w₁ : WithBot ℕ) ∧ Y.degree < (w₂ : WithBot ℕ) := by
  have hsize := h.size_eq
  rw [← h.left_eq, ← h.right_eq]
  constructor
  · refine degree_vectorPolynomial_lt ?_
    rw [Array.size_extract]
    omega
  · refine degree_vectorPolynomial_lt ?_
    rw [Array.size_extract]
    omega

/-- The vectors of the kernel are the pairs of polynomials that solve the homogeneous equation. -/
theorem coordinates_mem_kernel_sylvester_iff (a b : Poly K) {w₁ w₂ : ℕ} {v : Array K}
    (hv : v.size = w₁ + w₂) :
    coordinates (w₁ + w₂) v ∈ (sylvester a b w₁ w₂).kernel ↔
      a.toPolynomial * vectorPolynomial (v.extract 0 w₁) +
        b.toPolynomial * vectorPolynomial (v.extract w₁ v.size) = 0 := by
  rw [← vectorPolynomial_mulVec_sylvester a b hv, vectorPolynomial_eq_zero_iff]
  exact Mat.coordinates_mem_kernel_iff (sylvester a b w₁ w₂) v

end Pairs

section Multiples

variable {F : Type} [Field F]

/-- The coefficients of the multiple by `q` of the solution `(-B', A')`, as far as the widths
reach. -/
noncomputable def multipleVector (A' B' : F[X]) (w₁ w₂ d : ℕ) :
    degreeLT F d →ₗ[F] (Fin (w₁ + w₂) → F) where
  toFun q := coordinates (w₁ + w₂) (pairVector w₁ w₂ (-(B' * q)) (A' * q))
  map_add' p q := by
    simp only [pairVector, coordinates_ofFn]
    funext i
    by_cases hi : (i : ℕ) < w₁
    · simp only [if_pos hi, Submodule.coe_add, Pi.add_apply, mul_add, neg_add, coeff_add]
    · simp only [if_neg hi, Submodule.coe_add, Pi.add_apply, mul_add, coeff_add]
  map_smul' t q := by
    simp only [pairVector, coordinates_ofFn]
    funext i
    by_cases hi : (i : ℕ) < w₁
    · simp [hi]
    · simp [hi]

variable {a b : Poly F} {H A' B' : F[X]} {w₁ w₂ : ℕ}

/-- The two segments of a vector of the kernel are one multiple of the cofactors. -/
theorem Cofactors.mem_kernel_sylvester_iff
    (h : Cofactors a.toPolynomial b.toPolynomial H A' B') (ha : a.toPolynomial ≠ 0) {v : Array F}
    (hv : v.size = w₁ + w₂) :
    coordinates (w₁ + w₂) v ∈ (sylvester a b w₁ w₂).kernel ↔
      ∃ q, vectorPolynomial (v.extract 0 w₁) = -(B' * q) ∧
        vectorPolynomial (v.extract w₁ v.size) = A' * q := by
  rw [coordinates_mem_kernel_sylvester_iff a b hv, h.homogeneous_iff ha]

/-- The multiplier of a pair of polynomials below the widths is as small as the widths ask for. -/
theorem Cofactors.degree_lt_min_iff (h : Cofactors a.toPolynomial b.toPolynomial H A' B')
    (ha : a.toPolynomial ≠ 0) (hb : b.toPolynomial ≠ 0) (q : F[X]) :
    (-(B' * q)).degree < (w₁ : WithBot ℕ) ∧ (A' * q).degree < (w₂ : WithBot ℕ) ↔
      q.degree < ((min (w₁ - B'.natDegree) (w₂ - A'.natDegree) : ℕ) : WithBot ℕ) := by
  rw [degree_neg, degree_mul_lt_iff (h.symm.cofactor_ne_zero hb),
    degree_mul_lt_iff (h.cofactor_ne_zero ha), Nat.mono_cast.map_min, lt_min_iff]

/-- The vectors of the kernel hold the multiples of the cofactors that fit the widths. -/
theorem Cofactors.mem_kernel_iff_holdsPair
    (h : Cofactors a.toPolynomial b.toPolynomial H A' B') (ha : a.toPolynomial ≠ 0)
    (hb : b.toPolynomial ≠ 0) {v : Array F} (hv : v.size = w₁ + w₂) :
    coordinates (w₁ + w₂) v ∈ (sylvester a b w₁ w₂).kernel ↔
      ∃ q : F[X], q.degree < ((min (w₁ - B'.natDegree) (w₂ - A'.natDegree) : ℕ) : WithBot ℕ) ∧
        HoldsPair w₁ w₂ (-(B' * q)) (A' * q) v := by
  rw [h.mem_kernel_sylvester_iff ha hv]
  constructor
  · rintro ⟨q, hX, hY⟩
    have hpair : HoldsPair w₁ w₂ (-(B' * q)) (A' * q) v := ⟨hv, hX, hY⟩
    exact ⟨q, (h.degree_lt_min_iff ha hb q).mp hpair.degree_lt, hpair⟩
  · rintro ⟨q, -, hpair⟩
    exact ⟨q, hpair.left_eq, hpair.right_eq⟩

/-- The multiples of the cofactors that fit the widths are held by vectors. -/
theorem Cofactors.holdsPair_of_degree_lt (h : Cofactors a.toPolynomial b.toPolynomial H A' B')
    (ha : a.toPolynomial ≠ 0) (hb : b.toPolynomial ≠ 0) {q : F[X]}
    (hq : q.degree < ((min (w₁ - B'.natDegree) (w₂ - A'.natDegree) : ℕ) : WithBot ℕ)) :
    HoldsPair w₁ w₂ (-(B' * q)) (A' * q) (pairVector w₁ w₂ (-(B' * q)) (A' * q)) := by
  obtain ⟨hleft, hright⟩ := (h.degree_lt_min_iff ha hb q).mpr hq
  exact holdsPair_pairVector hleft hright

/-- The kernel consists of the multiples of the solution `(-B', A')` that fit the widths. -/
theorem Cofactors.range_multipleVector (h : Cofactors a.toPolynomial b.toPolynomial H A' B')
    (ha : a.toPolynomial ≠ 0) (hb : b.toPolynomial ≠ 0) :
    LinearMap.range (multipleVector A' B' w₁ w₂ (min (w₁ - B'.natDegree) (w₂ - A'.natDegree))) =
      (sylvester a b w₁ w₂).kernel := by
  apply le_antisymm
  · rintro _ ⟨q, rfl⟩
    have hq := mem_degreeLT.mp q.2
    exact (h.mem_kernel_iff_holdsPair ha hb (size_pairVector _ _ _ _)).mpr
      ⟨q, hq, h.holdsPair_of_degree_lt ha hb hq⟩
  · intro u hu
    rw [← coordinates_ofFn u] at hu ⊢
    obtain ⟨q, hq, hpair⟩ := (h.mem_kernel_iff_holdsPair ha hb Array.size_ofFn).mp hu
    exact ⟨⟨q, mem_degreeLT.mpr hq⟩, congrArg (coordinates (w₁ + w₂)) hpair.eq_pairVector.symm⟩

/-- The dimension of the kernel is what the widths leave beyond the degrees of the cofactors. -/
theorem Cofactors.finrank_kernel_sylvester
    (h : Cofactors a.toPolynomial b.toPolynomial H A' B') (ha : a.toPolynomial ≠ 0)
    (hb : b.toPolynomial ≠ 0) : Module.finrank F (sylvester a b w₁ w₂).kernel =
      min (w₁ - B'.natDegree) (w₂ - A'.natDegree) := by
  have hinjective : Function.Injective
      (multipleVector A' B' w₁ w₂ (min (w₁ - B'.natDegree) (w₂ - A'.natDegree))) := by
    intro p q hpq
    have hp := ((h.degree_lt_min_iff ha hb p).mpr (mem_degreeLT.mp p.2)).2
    have hq := ((h.degree_lt_min_iff ha hb q).mpr (mem_degreeLT.mp q.2)).2
    have hvector := eq_of_coordinates_eq (size_pairVector _ _ _ _) (size_pairVector _ _ _ _) hpq
    refine Subtype.ext (mul_left_cancel₀ (h.cofactor_ne_zero ha) ?_)
    rw [← vectorPolynomial_pairVector_right w₁ (-(B' * p.1)) hp, hvector,
      vectorPolynomial_pairVector_right w₁ (-(B' * q.1)) hq]
  have hrange := LinearMap.finrank_range_of_inj hinjective
  rw [(degreeLTEquiv F _).finrank_eq, Module.finrank_fin_fun] at hrange
  rw [← hrange]
  exact congrArg (fun S : Submodule F (Fin (w₁ + w₂) → F) => Module.finrank F S)
    (h.range_multipleVector ha hb).symm

/-- The square Sylvester matrix of `a` and `b` lacks as much of its full rank as the degree of their
common factor. -/
theorem Cofactors.rank_add_natDegree (h : Cofactors a.toPolynomial b.toPolynomial H A' B')
    (ha : a.toPolynomial ≠ 0) (hb : b.toPolynomial ≠ 0) :
    (sylvester a b b.toPolynomial.natDegree a.toPolynomial.natDegree).rank + H.natDegree =
      a.toPolynomial.natDegree + b.toPolynomial.natDegree := by
  have hsum := (sylvester a b b.toPolynomial.natDegree
    a.toPolynomial.natDegree).rank_add_finrank_kernel
  rw [h.finrank_kernel_sylvester ha hb, cols_sylvester] at hsum
  have hleft := h.natDegree_eq ha
  have hright := h.symm.natDegree_eq hb
  omega

end Multiples

section Widths

variable {F : Type} [Field F] [DecidableEq F] {a b : Poly F}

/-- The Sylvester matrix of two polynomials other than zero is built for all widths that are not
negative. Its kernel has as many dimensions as the widths leave beyond the degrees of the cofactors,
and holds exactly the multiples of the solution that the greatest common divisor leaves of `(-b, a)`
by a polynomial of lower degree than that. -/
theorem sylvester_kernel (ha : a.IsOrdinary) (hb : b.IsOrdinary) (hazero : a.isZero = false)
    (hbzero : b.isZero = false) {w₁ w₂ : ℤ} (hw₁ : 0 ≤ w₁) (hw₂ : 0 ≤ w₂) (shown : String) :
    let H := EuclideanDomain.gcd a.toPolynomial b.toPolynomial
    ∃ S d, sylvester? a b w₁ w₂ shown = .ok S ∧ (S.cols : ℤ) = w₁ + w₂ ∧
      Module.finrank F S.kernel = d ∧
      (d : ℤ) = max 0 (min (w₁ - (b.degree - H.natDegree)) (w₂ - (a.degree - H.natDegree))) ∧
      (∀ v : Array F, v.size = S.cols → (coordinates S.cols v ∈ S.kernel ↔
        ∃ q : F[X], q.degree < (d : WithBot ℕ) ∧
          HoldsPair w₁.toNat w₂.toNat (-(b.toPolynomial / H * q)) (a.toPolynomial / H * q) v)) ∧
      ∀ q : F[X], q.degree < (d : WithBot ℕ) → ∃ v,
        HoldsPair w₁.toNat w₂.toNat (-(b.toPolynomial / H * q)) (a.toPolynomial / H * q) v := by
  intro H
  have hA := Poly.toPolynomial_ne_zero hazero
  have hB := Poly.toPolynomial_ne_zero hbzero
  obtain ⟨A', B', h⟩ : ∃ A' B', Cofactors a.toPolynomial b.toPolynomial H A' B' :=
    exists_cofactors hA b.toPolynomial
  clear_value H
  have hadegree := h.natDegree_eq hA
  have hbdegree := h.symm.natDegree_eq hB
  refine ⟨sylvester a b w₁.toNat w₂.toNat, _, if_neg (by omega), ?_,
    h.finrank_kernel_sylvester hA hB, ?_, ?_⟩
  · rw [cols_sylvester]
    omega
  · rw [ha.degree_eq hazero, hb.degree_eq hbzero]
    omega
  · rw [h.div_eq hA, h.symm.div_eq hB]
    exact ⟨fun v hv => h.mem_kernel_iff_holdsPair hA hB hv,
      fun q hq => ⟨_, h.holdsPair_of_degree_lt hA hB hq⟩⟩

/-- For `1 + s` and its square the widths two and one leave one solution up to a factor, `-1 - s`
and `1`. -/
theorem sylvester_kernel_square :
    (Poly.ofCoef #[(1 : ℝ), 1] "s").isZero = false ∧
      (Poly.ofCoef #[(1 : ℝ), 2, 1] "s").isZero = false ∧
      ∃ S, sylvester? (Poly.ofCoef #[(1 : ℝ), 1] "s") (Poly.ofCoef #[1, 2, 1] "s") 2 1 "(2, 1)" =
          .ok S ∧
        Module.finrank ℝ S.kernel = 1 ∧ coordinates S.cols #[-1, -1, 1] ∈ S.kernel := by
  let a : Poly ℝ := Poly.ofCoef #[1, 1] "s"
  let b : Poly ℝ := Poly.ofCoef #[1, 2, 1] "s"
  have hazero : a.isZero = false := Poly.isZero_ofCoef (i := 0) one_ne_zero "s"
  have hbzero : b.isZero = false := Poly.isZero_ofCoef (i := 0) one_ne_zero "s"
  have hA : a.toPolynomial = C 1 * X + C 1 := Poly.toPolynomial_linear 1 1 "s"
  have hB : b.toPolynomial = a.toPolynomial * a.toPolynomial := by
    have hquadratic : b.toPolynomial = C 1 * X ^ 2 + C 2 * X + C 1 :=
      Poly.toPolynomial_quadratic 1 2 1 "s"
    rw [hquadratic, hA, C_1, (C_ofNat 2 : (C 2 : ℝ[X]) = 2)]
    ring
  have hgcd : EuclideanDomain.gcd a.toPolynomial b.toPolynomial = a.toPolynomial :=
    EuclideanDomain.gcd_eq_left.mpr ⟨_, hB⟩
  have hAne := Poly.toPolynomial_ne_zero hazero
  have hnatDegree : a.toPolynomial.natDegree = 1 := by rw [hA, natDegree_linear one_ne_zero]
  have hadegree : a.degree = 1 := Poly.degree_linear 1 one_ne_zero "s"
  have hbdegree : b.degree = 2 := Poly.degree_quadratic 1 2 one_ne_zero "s"
  obtain ⟨S, d, hS, hcols, hd, hdimension, hkernel, -⟩ := sylvester_kernel
    (Poly.isOrdinary_ofCoef #[(1 : ℝ), 1] "s") (Poly.isOrdinary_ofCoef #[(1 : ℝ), 2, 1] "s") hazero
    hbzero zero_le_two zero_le_one "(2, 1)"
  rw [hgcd, hnatDegree, hadegree, hbdegree] at hdimension
  obtain rfl : d = 1 := by omega
  have hpair : HoldsPair 2 1 (-(b.toPolynomial / a.toPolynomial * 1))
      (a.toPolynomial / a.toPolynomial * 1) #[(-1 : ℝ), -1, 1] := by
    refine ⟨rfl, ?_, ?_⟩
    · rw [hB, mul_div_cancel_left₀ _ hAne, mul_one, hA]
      refine (vectorPolynomial_pair (-1) (-1)).trans ?_
      rw [C_neg]
      ring
    · rw [EuclideanDomain.div_self hAne, mul_one]
      exact vectorPolynomial_singleton 1
  rw [hgcd] at hkernel
  refine ⟨hazero, hbzero, S, hS, hd, (hkernel _ ?_).mpr ⟨1, ?_, hpair⟩⟩
  · change 3 = S.cols
    omega
  · rw [degree_one]
    exact Nat.cast_pos.mpr Nat.one_pos

end Widths

end PolynomialEquations
