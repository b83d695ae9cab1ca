import PolynomialEquations.Proofs.Kernel.Direction
import PolynomialEquations.Proofs.Kernel.Existence
import PolynomialEquations.Proofs.Matrix.SylvesterKernel
import PolynomialEquations.Proofs.Poly.Norm
import Mathlib.RingTheory.LittleWedderburn

/-!
# The least solution of the homogeneous equation

Along the loop that lowers both widths, the kernel of the Sylvester matrix loses one dimension at a
time, and every pair read off it is a multiple of the cofactors of `a` and `b`. The last pair comes
from a kernel of dimension one, where the multiplier is a number, and its coefficients are
canonical; and when the first kernel is empty already, `a` and `b` are coprime and the pair
`(-b, a)` itself is the least one.
-/

namespace PolynomialEquations

open Polynomial

variable {K : Type} [RCLike K] {kernels : LinearKernels K} {a b : Poly K} {H A' B' : K[X]}

section Canonical

/-- A canonical vector cut into two segments stays canonical when zeros at the ends of the segments
are added or left out. -/
theorem IsCanonical.append {v p q : Array K} {w : ℕ} (hv : IsCanonical v) (hw : w ≤ v.size)
    (hp : ∀ i, p.getD i 0 = (v.extract 0 w).getD i 0)
    (hq : ∀ i, q.getD i 0 = (v.extract w v.size).getD i 0) : IsCanonical (p ++ q) := by
  obtain ⟨i, hi, r, hr, hvi⟩ := hv.exists_positive
  have hpos : 0 < ‖v.getD i 0‖ := by
    rwa [hvi, RCLike.norm_of_nonneg hr.le]
  have hleft : ∀ j, p.getD j 0 = if j < w then v.getD j 0 else 0 := fun j => by
    rw [hp, getD_extract, Nat.zero_add]
  have hright : ∀ j, q.getD j 0 = v.getD (w + j) 0 := fun j => by
    rw [hq, getD_extract]
    by_cases hj : w + j < v.size
    · rw [if_pos hj]
    · rw [if_neg hj, getD_of_size_le (Nat.le_of_not_lt hj)]
  have hle : ∀ j, ‖(p ++ q).getD j 0‖ ≤ ‖v.getD i 0‖ := by
    intro j
    rw [getD_append, hleft, hright]
    split_ifs
    · exact hi.norm_le j
    · rw [norm_zero]
      exact hpos.le
    · exact hi.norm_le _
  constructor
  · rw [← pow_left_inj₀ (euclideanNorm_nonneg _) zero_le_one two_ne_zero, euclideanNorm_append_sq,
      euclideanNorm_congr hp, euclideanNorm_congr hq, ← euclideanNorm_extract_sq v hw,
      hv.norm_eq_one]
  · by_cases hiw : i < w
    · have hip : i < p.size := by
        by_contra hout
        have hzero : p.getD i 0 = 0 := getD_of_size_le (by omega)
        rw [hleft, if_pos hiw] at hzero
        exact norm_pos_iff.mp hpos hzero
      have hentry : (p ++ q).getD i 0 = v.getD i 0 := by
        rw [getD_append, if_pos hip, hleft, if_pos hiw]
      refine ⟨i, ⟨hentry ▸ hle, fun j hj => ?_⟩, r, hr, hentry.trans hvi⟩
      rw [hentry, getD_append, if_pos (by omega), hleft, if_pos (by omega)]
      exact hi.norm_lt j hj
    · have hentry : (p ++ q).getD (p.size + (i - w)) 0 = v.getD i 0 := by
        rw [getD_append, if_neg (by omega), hright, Nat.add_sub_cancel_left,
          Nat.add_sub_cancel' (by omega)]
      refine ⟨p.size + (i - w), ⟨hentry ▸ hle, fun j hj => ?_⟩, r, hr, hentry.trans hvi⟩
      rw [hentry, getD_append, hleft, hright]
      split_ifs
      · exact hi.norm_lt j (by omega)
      · rwa [norm_zero]
      · exact hi.norm_lt _ (by omega)

/-- The pair as it is read off a canonical vector, in the variable `s`. -/
structure IsCanonicalPair (s : String) (pair : Poly K × Poly K) : Prop where
  /-- The first unknown is a polynomial in `s`. -/
  symbol_fst : pair.1.symbol = s
  /-- The second unknown is a polynomial in `s`. -/
  symbol_snd : pair.2.symbol = s
  /-- The coefficients of both unknowns together are canonical. -/
  canonical : IsCanonical (pair.1.coef ++ pair.2.coef)

/-- The segments of a canonical vector give a canonical pair. -/
theorem IsCanonical.isCanonicalPair {v : Array K} {w : ℕ} (hv : IsCanonical v) (hw : w ≤ v.size)
    (s : String) :
    IsCanonicalPair s (Poly.ofCoef (v.extract 0 w) s, Poly.ofCoef (v.extract w v.size) s) :=
  ⟨Poly.symbol_ofCoef _ s, Poly.symbol_ofCoef _ s,
    hv.append hw (Poly.getD_coef_ofCoef _ s) (Poly.getD_coef_ofCoef _ s)⟩

end Canonical

section Loop

/-- The pair is the solution `(-B', A')` up to a number other than zero. -/
structure IsCofactorPair (A' B' : K[X]) (pair : Poly K × Poly K) : Prop where
  /-- The first unknown is an ordinary polynomial. -/
  ordinary_fst : pair.1.IsOrdinary
  /-- The second unknown is an ordinary polynomial. -/
  ordinary_snd : pair.2.IsOrdinary
  /-- One number turns the cofactors into both unknowns. -/
  exists_factor : ∃ t : K, t ≠ 0 ∧ pair.1.toPolynomial = -(B' * C t) ∧
    pair.2.toPolynomial = A' * C t

/-- The Sylvester matrix with a first block that has columns has rows. -/
theorem rows_sylvester_pos (ha : a.IsOrdinary) (w₁ w₂ : ℕ) :
    0 < (sylvester a b (w₁ + 1) w₂).rows := by
  rw [rows_sylvester, rows_sylvesterBlock, ha.size_coef, if_neg (by omega)]
  omega

/-- A kernel found is as large as the widths leave room beyond the degrees of the cofactors. -/
theorem Cofactors.exists_nullspace (h : Cofactors a.toPolynomial b.toPolynomial H A' B')
    (hk : kernels.SpansKernels) (ha : a.IsOrdinary) (hA : a.toPolynomial ≠ 0)
    (hB : b.toPolynomial ≠ 0) (w₁ w₂ : ℕ) :
    ∃ N, kernels.nullspace (sylvester a b (w₁ + 1) w₂) = .ok N ∧
      IsKernelBasis (sylvester a b (w₁ + 1) w₂) N ∧
      N.cols = min (w₁ + 1 - B'.natDegree) (w₂ - A'.natDegree) := by
  obtain ⟨N, hN, hbasis⟩ := hk.exists_nullspace (rows_sylvester_pos (b := b) ha w₁ w₂)
    (by rw [cols_sylvester]; omega)
  exact ⟨N, hN, hbasis, hbasis.cols_eq.trans (h.finrank_kernel_sylvester hA hB)⟩

/-- The vector chosen from a kernel is canonical and a multiple of the cofactors, with a multiplier
other than zero that fits the widths. -/
theorem Cofactors.exists_kernelVector (h : Cofactors a.toPolynomial b.toPolynomial H A' B')
    (hA : a.toPolynomial ≠ 0) (hB : b.toPolynomial ≠ 0) {w₁ w₂ : ℕ} {N : Mat K}
    (hbasis : IsKernelBasis (sylvester a b w₁ w₂) N) (hN : 0 < N.cols) :
    ∃ v q, (kernelVector N : Traced ℝ _).outcome = .ok v ∧ v.size = w₁ + w₂ ∧ IsCanonical v ∧
      q ≠ 0 ∧ q.degree < ((min (w₁ - B'.natDegree) (w₂ - A'.natDegree) : ℕ) : WithBot ℕ) ∧
      vectorPolynomial (v.extract 0 w₁) = -(B' * q) ∧
      vectorPolynomial (v.extract w₁ v.size) = A' * q := by
  obtain ⟨j, hj, hv⟩ := PolynomialEquations.exists_kernelVector hN
  obtain ⟨i, hi⟩ := hbasis.exists_col_ne_zero hj
  obtain ⟨hcanonical, t, ht, hmultiple⟩ := exists_canonicalDirection hi
  let v : Array K := canonicalDirection (R := ℝ) (N.col j)
  have hsize : v.size = w₁ + w₂ := by
    rw [size_canonicalDirection, Mat.size_col, hbasis.rows_eq, cols_sylvester]
  have hcoordinates : coordinates (w₁ + w₂) v = t • coordinates (w₁ + w₂) (N.col j) :=
    funext fun k => hmultiple k
  have hmem : coordinates (w₁ + w₂) v ∈ (sylvester a b w₁ w₂).kernel := by
    rw [hcoordinates]
    exact Submodule.smul_mem _ t (hbasis.col_mem_kernel hj)
  obtain ⟨q, hX, hY⟩ := (h.mem_kernel_sylvester_iff hA hsize).mp hmem
  refine ⟨v, q, hv, hsize, hcanonical, ?_, ?_, hX, hY⟩
  · rintro rfl
    rw [mul_zero] at hX hY
    rw [neg_zero] at hX
    have hzero := pairVector_vectorPolynomial hsize
    rw [hX, hY] at hzero
    have hvi : v.getD i 0 = 0 := by
      rw [← hzero, pairVector, getD_ofFn]
      simp
    rw [hmultiple] at hvi
    exact mul_ne_zero ht hi hvi
  · rw [← h.degree_lt_min_iff hA hB, ← hX, ← hY]
    refine ⟨degree_vectorPolynomial_lt ?_, degree_vectorPolynomial_lt ?_⟩
    · rw [Array.size_extract]
      omega
    · rw [Array.size_extract]
      omega

/-- Where the widths leave no room beyond the degrees of the cofactors, the loop ends with the pair
found before. -/
theorem Cofactors.smallerPair_of_no_room (h : Cofactors a.toPolynomial b.toPolynomial H A' B')
    (hk : kernels.SpansKernels) (ha : a.IsOrdinary) (hA : a.toPolynomial ≠ 0)
    (hB : b.toPolynomial ≠ 0) {w₁ w₂ : ℕ} (hroom : w₁ ≤ B'.natDegree ∨ w₂ ≤ A'.natDegree)
    (found : Option (Poly K × Poly K)) :
    (smallerPair kernels a b w₁ w₂ found : Traced ℝ _).outcome = .ok found := by
  rcases w₁ with _ | w₁
  · rw [smallerPair]
    · rfl
    · simp
  rcases w₂ with _ | w₂
  · rw [smallerPair]
    · rfl
    · simp
  obtain ⟨N, hN, -, hcols⟩ := h.exists_nullspace hk ha hA hB w₁ (w₂ + 1)
  rw [smallerPair, Traced.outcome_ofExcept_bind hN, Traced.outcome_note_bind, if_pos (by omega)]
  rfl

/-- One step of the loop reads off a canonical pair with a multiplier as small as the widths ask
for, and goes on with that pair. -/
theorem Cofactors.exists_smallerPair_step (h : Cofactors a.toPolynomial b.toPolynomial H A' B')
    (hk : kernels.SpansKernels) (ha : a.IsOrdinary) (hA : a.toPolynomial ≠ 0)
    (hB : b.toPolynomial ≠ 0) {w₁ w₂ d : ℕ} (hw₁ : w₁ = B'.natDegree + d)
    (hw₂ : w₂ = A'.natDegree + d) (found : Option (Poly K × Poly K)) :
    ∃ (x y : Poly K) (q : K[X]), x.IsOrdinary ∧ y.IsOrdinary ∧ IsCanonicalPair a.symbol (x, y) ∧
      q ≠ 0 ∧ q.degree < ((d + 1 : ℕ) : WithBot ℕ) ∧
      x.toPolynomial = -(B' * q) ∧ y.toPolynomial = A' * q ∧
      (smallerPair kernels a b (w₁ + 1) (w₂ + 1) found : Traced ℝ _).outcome =
        (smallerPair kernels a b w₁ w₂ (some (x, y)) : Traced ℝ _).outcome := by
  obtain ⟨N, hN, hbasis, hcols⟩ := h.exists_nullspace hk ha hA hB w₁ (w₂ + 1)
  obtain ⟨v, q, hv, hsize, hcanonical, hq, hdegree, hX, hY⟩ :=
    h.exists_kernelVector hA hB hbasis (by omega)
  rw [← hcols, show N.cols = d + 1 by omega] at hdegree
  refine ⟨Poly.ofCoef (v.extract 0 (w₁ + 1)) a.symbol,
    Poly.ofCoef (v.extract (w₁ + 1) v.size) a.symbol, q, Poly.isOrdinary_ofCoef _ _,
    Poly.isOrdinary_ofCoef _ _, hcanonical.isCanonicalPair (by omega) _, hq, hdegree, ?_, ?_, ?_⟩
  · rw [Poly.toPolynomial_ofCoef, hX]
  · rw [Poly.toPolynomial_ofCoef, hY]
  · rw [smallerPair, Traced.outcome_ofExcept_bind hN, Traced.outcome_note_bind,
      if_neg (by omega), Traced.outcome_bind_of_ok hv]

/-- As long as there is room the loop ends with a canonical pair of cofactors up to a number. -/
theorem Cofactors.exists_smallerPair (h : Cofactors a.toPolynomial b.toPolynomial H A' B')
    (hk : kernels.SpansKernels) (ha : a.IsOrdinary) (hA : a.toPolynomial ≠ 0)
    (hB : b.toPolynomial ≠ 0) (d : ℕ) (found : Option (Poly K × Poly K)) :
    ∃ pair, IsCofactorPair A' B' pair ∧ IsCanonicalPair a.symbol pair ∧
      (smallerPair kernels a b (B'.natDegree + d + 1) (A'.natDegree + d + 1) found :
        Traced ℝ _).outcome = .ok (some pair) := by
  induction d generalizing found with
  | zero =>
    obtain ⟨x, y, q, hx, hy, hcanonical, hq, hdegree, hX, hY, hstep⟩ :=
      h.exists_smallerPair_step hk ha hA hB (d := 0) rfl rfl found
    -- the last kernel has dimension one, so the multiplier is a number
    have hnatDegree := (natDegree_lt_iff_degree_lt hq).mpr hdegree
    obtain ⟨t, rfl⟩ : ∃ t, q = C t :=
      ⟨q.coeff 0, eq_C_of_natDegree_eq_zero (by omega)⟩
    refine ⟨(x, y), ⟨hx, hy, t, C_ne_zero.mp hq, hX, hY⟩, hcanonical, ?_⟩
    rw [hstep]
    exact h.smallerPair_of_no_room hk ha hA hB (Or.inl le_rfl) _
  | succ d ih =>
    obtain ⟨x, y, q, -, -, -, -, -, -, -, hstep⟩ :=
      h.exists_smallerPair_step hk ha hA hB (d := d + 1) rfl rfl found
    obtain ⟨pair, hpair, hcanonical, houtcome⟩ := ih (some (x, y))
    exact ⟨pair, hpair, hcanonical, hstep.trans houtcome⟩

end Loop

section Solution

/-- For polynomials other than zero the loop starts with the widths of their degrees. -/
theorem homogeneousPair_outcome (ha : a.IsOrdinary) (hb : b.IsOrdinary)
    (hazero : a.isZero = false) (hbzero : b.isZero = false) {found : Option (Poly K × Poly K)}
    (hloop : (smallerPair kernels a b b.toPolynomial.natDegree a.toPolynomial.natDegree none :
      Traced ℝ _).outcome = .ok found) :
    (homogeneousPair kernels a b : Traced ℝ _).outcome = .ok (found.getD (-b, a)) := by
  have hreduced : (reducedPair kernels a b : Traced ℝ _) =
      smallerPair kernels a b b.toPolynomial.natDegree a.toPolynomial.natDegree none := by
    rw [reducedPair, if_neg (by simp [hazero, hbzero]), ha.degree_eq hazero, hb.degree_eq hbzero,
      Int.toNat_natCast, Int.toNat_natCast]
  rw [homogeneousPair, hreduced]
  exact Traced.outcome_bind_of_ok hloop _

/-- For coprime polynomials the solution found is `(-b, a)`. -/
theorem Cofactors.homogeneousPair_of_coprime
    (h : Cofactors a.toPolynomial b.toPolynomial H A' B') (hk : kernels.SpansKernels)
    (ha : a.IsOrdinary) (hb : b.IsOrdinary) (hazero : a.isZero = false)
    (hbzero : b.isZero = false) (hH : H.natDegree = 0) :
    (homogeneousPair kernels a b : Traced ℝ _).outcome = .ok (-b, a) := by
  have hA := Poly.toPolynomial_ne_zero hazero
  have hB := Poly.toPolynomial_ne_zero hbzero
  have hdegree := h.symm.natDegree_eq hB
  exact homogeneousPair_outcome ha hb hazero hbzero
    (h.smallerPair_of_no_room hk ha hA hB (Or.inl (by omega)) none)

/-- For polynomials with a common factor the solution found is a canonical pair of cofactors up to a
number. -/
theorem Cofactors.exists_homogeneousPair_canonical
    (h : Cofactors a.toPolynomial b.toPolynomial H A' B') (hk : kernels.SpansKernels)
    (ha : a.IsOrdinary) (hb : b.IsOrdinary) (hazero : a.isZero = false)
    (hbzero : b.isZero = false) (hH : 0 < H.natDegree) :
    ∃ pair, IsCofactorPair A' B' pair ∧ IsCanonicalPair a.symbol pair ∧
      (homogeneousPair kernels a b : Traced ℝ _).outcome = .ok pair := by
  have hA := Poly.toPolynomial_ne_zero hazero
  have hB := Poly.toPolynomial_ne_zero hbzero
  have hdegreeA := h.natDegree_eq hA
  have hdegreeB := h.symm.natDegree_eq hB
  obtain ⟨pair, hpair, hcanonical, hloop⟩ :=
    h.exists_smallerPair hk ha hA hB (H.natDegree - 1) none
  rw [show B'.natDegree + (H.natDegree - 1) + 1 = b.toPolynomial.natDegree by omega,
    show A'.natDegree + (H.natDegree - 1) + 1 = a.toPolynomial.natDegree by omega] at hloop
  exact ⟨pair, hpair, hcanonical, homogeneousPair_outcome ha hb hazero hbzero hloop⟩

/-- The solution found is the pair of cofactors up to a number other than zero. -/
theorem Cofactors.exists_homogeneousPair (h : Cofactors a.toPolynomial b.toPolynomial H A' B')
    (hk : kernels.SpansKernels) (ha : a.IsOrdinary) (hb : b.IsOrdinary)
    (hazero : a.isZero = false) (hbzero : b.isZero = false) :
    ∃ pair, IsCofactorPair A' B' pair ∧
      (homogeneousPair kernels a b : Traced ℝ _).outcome = .ok pair := by
  rcases Nat.eq_zero_or_pos H.natDegree with hH | hH
  · refine ⟨(-b, a), ?_, h.homogeneousPair_of_coprime hk ha hb hazero hbzero hH⟩
    -- the greatest common divisor is a number, which is the factor looked for
    obtain ⟨t, rfl⟩ : ∃ t, H = C t := ⟨H.coeff 0, eq_C_of_natDegree_eq_zero hH⟩
    refine ⟨Poly.isOrdinary_neg hb.variant_eq, ha, t,
      C_ne_zero.mp (h.common_ne_zero (Poly.toPolynomial_ne_zero hazero)), ?_, ?_⟩
    · rw [Poly.toPolynomial_neg hb.variant_eq, h.right_eq, mul_comm]
    · rw [h.left_eq, mul_comm]
  · obtain ⟨pair, hpair, -, houtcome⟩ :=
      h.exists_homogeneousPair_canonical hk ha hb hazero hbzero hH
    exact ⟨pair, hpair, houtcome⟩

/-- With exact kernels the solution of `a x + b y = 0` is, up to a number other than zero, the one
that the greatest common divisor leaves of `(-b, a)`; every other solution is a multiple of it, so
`y` has the least degree. -/
theorem homogeneousPair_least (hk : kernels.SpansKernels) (ha : a.IsOrdinary) (hb : b.IsOrdinary)
    (hazero : a.isZero = false) (hbzero : b.isZero = false) :
    let H := EuclideanDomain.gcd a.toPolynomial b.toPolynomial
    ∃ x y, (homogeneousPair kernels a b : Traced ℝ _).outcome = .ok (x, y) ∧
      x.IsOrdinary ∧ y.IsOrdinary ∧
      (∃ t : K, t ≠ 0 ∧ x.toPolynomial = -(C t * (b.toPolynomial / H)) ∧
        y.toPolynomial = C t * (a.toPolynomial / H)) ∧
      a.toPolynomial * x.toPolynomial + b.toPolynomial * y.toPolynomial = 0 ∧
      y.toPolynomial ∣ a.toPolynomial ∧ x.toPolynomial ∣ b.toPolynomial ∧
      x.degree = b.degree - H.natDegree ∧ y.degree = a.degree - H.natDegree ∧
      ∀ X Y : K[X], ¬(X = 0 ∧ Y = 0) → a.toPolynomial * X + b.toPolynomial * Y = 0 →
        (∃ q, X = q * x.toPolynomial ∧ Y = q * y.toPolynomial) ∧
        y.toPolynomial.degree ≤ Y.degree := by
  intro H
  have hA := Poly.toPolynomial_ne_zero hazero
  have hB := Poly.toPolynomial_ne_zero hbzero
  obtain ⟨A', B', h⟩ : ∃ A' B', Cofactors a.toPolynomial b.toPolynomial H A' B' :=
    exists_cofactors hA b.toPolynomial
  clear_value H
  obtain ⟨⟨x, y⟩, ⟨hx, hy, t, ht, hX, hY⟩, houtcome⟩ :=
    h.exists_homogeneousPair hk ha hb hazero hbzero
  dsimp only at hx hy hX hY
  have hXne : x.toPolynomial ≠ 0 := by
    rw [hX]
    exact neg_ne_zero.mpr (mul_ne_zero (h.symm.cofactor_ne_zero hB) (C_ne_zero.mpr ht))
  have hYne : y.toPolynomial ≠ 0 := by
    rw [hY]
    exact mul_ne_zero (h.cofactor_ne_zero hA) (C_ne_zero.mpr ht)
  refine ⟨x, y, houtcome, hx, hy, ⟨t, ht, ?_, ?_⟩, ?_, ?_, ?_, ?_, ?_, fun X Y hne hXY => ?_⟩
  · rw [hX, h.symm.div_eq hB, mul_comm]
  · rw [hY, h.div_eq hA, mul_comm]
  · exact (h.homogeneous_iff hA _ _).mpr ⟨C t, hX, hY⟩
  · rw [hY]
    exact h.mul_C_dvd ht
  · rw [hX, neg_dvd]
    exact h.symm.mul_C_dvd ht
  · rw [hx.degree_eq (Poly.isZero_eq_false hXne), hX, natDegree_neg, natDegree_mul_C ht,
      hb.degree_eq hbzero, h.symm.natDegree_eq hB]
    omega
  · rw [hy.degree_eq (Poly.isZero_eq_false hYne), hY, natDegree_mul_C ht, ha.degree_eq hazero,
      h.natDegree_eq hA]
    omega
  · obtain ⟨q, hXq, hYq⟩ := h.exists_multiple hA ht hXY
    rw [← hX] at hXq
    rw [← hY] at hYq
    refine ⟨⟨q, hXq, hYq⟩, degree_le_of_dvd ⟨q, hYq.trans (mul_comm q _)⟩ ?_⟩
    intro hYzero
    have hq := (mul_eq_zero_iff_right hYne).mp (hYq.symm.trans hYzero)
    exact hne ⟨by rw [hXq, hq, zero_mul], hYzero⟩

/-- For `(1 + s) (2 + s)` and `(1 + s) (3 + s)` the unknown `y` has degree one at most. -/
theorem homogeneousPair_least_common_factor :
    (exactKernels ℂ).SpansKernels ∧ (Poly.ofCoef #[(2 : ℂ), 3, 1] "s").isZero = false ∧
      (Poly.ofCoef #[(3 : ℂ), 4, 1] "s").isZero = false ∧
      ∃ x y, (homogeneousPair (exactKernels ℂ) (Poly.ofCoef #[2, 3, 1] "s")
          (Poly.ofCoef #[3, 4, 1] "s") : Traced ℝ _).outcome = .ok (x, y) ∧
        (Poly.ofCoef #[(2 : ℂ), 3, 1] "s").toPolynomial * x.toPolynomial +
          (Poly.ofCoef #[(3 : ℂ), 4, 1] "s").toPolynomial * y.toPolynomial = 0 ∧
        y.toPolynomial.degree ≤ 1 := by
  have ha := Poly.isZero_ofCoef (c := #[(2 : ℂ), 3, 1]) (i := 0) (by simp) "s"
  have hb := Poly.isZero_ofCoef (c := #[(3 : ℂ), 4, 1]) (i := 0) (by simp) "s"
  have hsolution : (Poly.ofCoef #[(2 : ℂ), 3, 1] "s").toPolynomial * -(X + C 3) +
      (Poly.ofCoef #[(3 : ℂ), 4, 1] "s").toPolynomial * (X + C 2) = 0 := by
    ext n
    rcases n with _ | _ | _ | _ | n <;> norm_num [mul_add]
  obtain ⟨x, y, houtcome, -, -, -, hzero, -, -, -, -, hleast⟩ := homogeneousPair_least
    exactKernels_spansKernels (Poly.isOrdinary_ofCoef _ _) (Poly.isOrdinary_ofCoef _ _) ha hb
  refine ⟨exactKernels_spansKernels, ha, hb, x, y, houtcome, hzero, ?_⟩
  have hdegree := (hleast _ _ (fun h => X_add_C_ne_zero 2 h.2) hsolution).2
  rwa [degree_X_add_C] at hdegree

end Solution

end PolynomialEquations
