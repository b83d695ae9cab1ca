import PolynomialEquations.Proofs.Equation.Homogeneous

/-!
# The solution of the homogeneous equation does not depend on the bases

Kernels of several dimensions occur along the loop, and the vector chosen from one depends on its
basis. The last kernel has dimension one: there all bases differ by a number, and of the multiples
of one vector only one is canonical. So any two ways to choose bases, at every step and in every
order, lead to the same pair.
-/

namespace PolynomialEquations

open Polynomial

variable {K : Type} [RCLike K] {kernels kernels' : LinearKernels K} {a b : Poly K} {A' B' : K[X]}

section Uniqueness

/-- The stored coefficients of a multiple are multiples, and as many. -/
theorem Poly.IsOrdinary.coef_multiple {x y : Poly K} (hx : x.IsOrdinary) (hy : y.IsOrdinary) {t : K}
    (ht : t ≠ 0) (h : x.toPolynomial = C t * y.toPolynomial) :
    x.coef.size = y.coef.size ∧ ∀ i, x.coef.getD i 0 = t * y.coef.getD i 0 := by
  constructor
  · rw [hx.size_coef, hy.size_coef, h, natDegree_C_mul ht]
  · intro i
    rw [← Poly.coeff_toPolynomial, h, coeff_C_mul, Poly.coeff_toPolynomial]

/-- There is only one canonical pair of cofactors in one variable. -/
theorem IsCofactorPair.eq_of_canonical {pair pair' : Poly K × Poly K} {s : String}
    (h : IsCofactorPair A' B' pair) (h' : IsCofactorPair A' B' pair')
    (hcanonical : IsCanonicalPair s pair) (hcanonical' : IsCanonicalPair s pair') :
    pair = pair' := by
  obtain ⟨t, ht, hX, hY⟩ := h.exists_factor
  obtain ⟨t', ht', hX', hY'⟩ := h'.exists_factor
  have hratio : C (t / t') * C t' = C t := by rw [← C_mul, div_mul_cancel₀ t ht']
  obtain ⟨hsizeX, hcoefX⟩ := h.ordinary_fst.coef_multiple h'.ordinary_fst (div_ne_zero ht ht')
    (by rw [hX, hX', ← hratio]; ring)
  obtain ⟨hsizeY, hcoefY⟩ := h.ordinary_snd.coef_multiple h'.ordinary_snd (div_ne_zero ht ht')
    (by rw [hY, hY', ← hratio]; ring)
  have hcoef : pair.1.coef ++ pair.2.coef = pair'.1.coef ++ pair'.2.coef := by
    refine hcanonical.canonical.eq_of_multiple (t := t / t') hcanonical'.canonical ?_ fun i => ?_
    · rw [Array.size_append, Array.size_append, hsizeX, hsizeY]
    · rw [getD_append, getD_append, hsizeX, hcoefX, hcoefY, mul_ite]
  obtain ⟨hcoefX, hcoefY⟩ := Array.append_inj hcoef hsizeX
  refine Prod.ext ?_ ?_
  · exact h.ordinary_fst.eq_of_toPolynomial_eq h'.ordinary_fst
      (hcanonical.symbol_fst.trans hcanonical'.symbol_fst.symm) (congrArg vectorPolynomial hcoefX)
  · exact h.ordinary_snd.eq_of_toPolynomial_eq h'.ordinary_snd
      (hcanonical.symbol_snd.trans hcanonical'.symbol_snd.symm) (congrArg vectorPolynomial hcoefY)

end Uniqueness

section Independence

/-- With any two kernels that find bases of all null spaces, orthonormal or not, the solution of
`a x + b y = 0` is the same. When `a` and `b` have a common factor of positive degree, its
coefficients together have norm one, and the first of the largest of them is real and positive; when
`a` and `b` are coprime, it is `(-b, a)`. -/
theorem homogeneousPair_basis_independent (hk : kernels.SpansKernels) (hk' : kernels'.SpansKernels)
    (ha : a.IsOrdinary) (hb : b.IsOrdinary) (hazero : a.isZero = false)
    (hbzero : b.isZero = false) :
    ∃ x y, (homogeneousPair kernels a b : Traced ℝ _).outcome = .ok (x, y) ∧
      (homogeneousPair kernels' a b : Traced ℝ _).outcome = .ok (x, y) ∧
      ((∃ p : K[X], 0 < p.natDegree ∧ p ∣ a.toPolynomial ∧ p ∣ b.toPolynomial) →
        IsCanonical (x.coef ++ y.coef)) ∧
      (IsCoprime a.toPolynomial b.toPolynomial → x = -b ∧ y = a) := by
  have hA := Poly.toPolynomial_ne_zero hazero
  obtain ⟨A', B', h⟩ := exists_cofactors hA b.toPolynomial
  rcases Nat.eq_zero_or_pos (EuclideanDomain.gcd a.toPolynomial b.toPolynomial).natDegree
    with hdegree | hdegree
  · refine ⟨-b, a, h.homogeneousPair_of_coprime hk ha hb hazero hbzero hdegree,
      h.homogeneousPair_of_coprime hk' ha hb hazero hbzero hdegree, ?_, fun _ => ⟨rfl, rfl⟩⟩
    rintro ⟨p, hp, hpa, hpb⟩
    have hle := natDegree_le_of_dvd (EuclideanDomain.dvd_gcd hpa hpb) (h.common_ne_zero hA)
    omega
  · obtain ⟨⟨x, y⟩, hpair, hcanonical, houtcome⟩ :=
      h.exists_homogeneousPair_canonical hk ha hb hazero hbzero hdegree
    obtain ⟨pair', hpair', hcanonical', houtcome'⟩ :=
      h.exists_homogeneousPair_canonical hk' ha hb hazero hbzero hdegree
    rw [← hpair.eq_of_canonical hpair' hcanonical hcanonical'] at houtcome'
    refine ⟨x, y, houtcome, houtcome', fun _ => hcanonical.canonical, fun hcoprime => ?_⟩
    have hunit := hcoprime.isUnit_of_dvd' (EuclideanDomain.gcd_dvd_left _ _)
      (EuclideanDomain.gcd_dvd_right _ _)
    exact absurd (natDegree_eq_zero_of_isUnit hunit) hdegree.ne'

end Independence

section TurnedKernels

/-- The matrix with all entries negated. -/
def Mat.neg (N : Mat K) : Mat K := N.map (-·)

theorem Mat.column_neg (N : Mat K) (n : ℕ) : N.neg.column n = -N.column n := by
  funext j i
  have hj : (j : ℕ) < N.neg.cols := j.isLt
  have hj' : (j : ℕ) < N.cols := hj
  change N.neg.get i j = -N.get i j
  rw [Mat.get, Mat.get, if_pos hj, if_pos hj']
  exact getD_map (neg_zero (G := K)) _ _

/-- The negated vectors of a basis are a basis. -/
theorem IsKernelBasis.neg {A N : Mat K} (h : IsKernelBasis A N) : IsKernelBasis A N.neg where
  rows_eq := h.rows_eq
  independent := by
    rw [Mat.column_neg]
    exact h.independent.neg
  span_eq := by
    have hrange : Set.range (N.neg.column A.cols) = -Set.range (N.column A.cols) := by
      rw [Mat.column_neg]
      exact (Set.range_comp Neg.neg (N.column A.cols)).trans Set.image_neg_eq_neg
    rw [hrange, Submodule.span_neg, h.span_eq]

/-- The exact kernels with all vectors of a basis turned around. -/
noncomputable def turnedKernels (K : Type) [RCLike K] : LinearKernels K :=
  { exactKernels K with nullBasis := fun A => ((exactKernels K).nullBasis A).map Mat.neg }

theorem turnedKernels_spansKernels : (turnedKernels K).SpansKernels where
  nullBasis_ok hrows hcols := by
    obtain ⟨N, hN, hbasis⟩ := exactKernels_spansKernels.nullBasis_ok (K := K) hrows hcols
    refine ⟨N.neg, ?_, hbasis.neg⟩
    change ((exactKernels K).nullBasis _).map Mat.neg = _
    rw [hN]
    rfl

/-- For `(1 + s) (2 + s)` and `(1 + s) (3 + s)` a basis and the one turned around give the same
canonical pair. -/
theorem homogeneousPair_basis_independent_turned :
    (exactKernels ℂ).SpansKernels ∧ (turnedKernels ℂ).SpansKernels ∧
      (Poly.ofCoef #[(2 : ℂ), 3, 1] "s").isZero = false ∧
      (Poly.ofCoef #[(3 : ℂ), 4, 1] "s").isZero = false ∧
      ∃ x y, (homogeneousPair (exactKernels ℂ) (Poly.ofCoef #[2, 3, 1] "s")
          (Poly.ofCoef #[3, 4, 1] "s") : Traced ℝ _).outcome = .ok (x, y) ∧
        (homogeneousPair (turnedKernels ℂ) (Poly.ofCoef #[2, 3, 1] "s")
          (Poly.ofCoef #[3, 4, 1] "s") : Traced ℝ _).outcome = .ok (x, y) ∧
        IsCanonical (x.coef ++ y.coef) := by
  have ha := Poly.isZero_ofCoef (c := #[(2 : ℂ), 3, 1]) (i := 0) (by simp) "s"
  have hb := Poly.isZero_ofCoef (c := #[(3 : ℂ), 4, 1]) (i := 0) (by simp) "s"
  have hdegree : 0 < (X + C 1 : ℂ[X]).natDegree := by
    rw [natDegree_X_add_C]
    exact Nat.one_pos
  have hleft : (X + C 1 : ℂ[X]) ∣ (Poly.ofCoef #[(2 : ℂ), 3, 1] "s").toPolynomial := by
    refine ⟨X + C 2, ?_⟩
    rw [Poly.toPolynomial_quadratic]
    simp only [map_one, map_ofNat]
    ring
  have hright : (X + C 1 : ℂ[X]) ∣ (Poly.ofCoef #[(3 : ℂ), 4, 1] "s").toPolynomial := by
    refine ⟨X + C 3, ?_⟩
    rw [Poly.toPolynomial_quadratic]
    simp only [map_one, map_ofNat]
    ring
  obtain ⟨x, y, houtcome, houtcome', hcanonical, -⟩ := homogeneousPair_basis_independent
    exactKernels_spansKernels turnedKernels_spansKernels (Poly.isOrdinary_ofCoef _ _)
    (Poly.isOrdinary_ofCoef _ _) ha hb
  exact ⟨exactKernels_spansKernels, turnedKernels_spansKernels, ha, hb, x, y, houtcome, houtcome',
    hcanonical ⟨X + C 1, hdegree, hleft, hright⟩⟩

end TurnedKernels

end PolynomialEquations
