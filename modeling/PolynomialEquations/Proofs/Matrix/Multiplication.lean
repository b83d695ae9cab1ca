import PolynomialEquations.Proofs.Matrix.Sylvester
import PolynomialEquations.Proofs.Poly.Laurent

/-!
# Matrices and arithmetic multiply alike

The matrix of a multiplication acts on vectors of a fixed length, while the arithmetic of values
convolves and trims. On the coefficients of the unknowns, filled up with zeros to the widths of the
blocks, the matrix gives the coefficients of the product that the arithmetic returns, and it has
enough rows for all of them.
-/

namespace PolynomialEquations

open Polynomial

section Segments

variable {K : Type} [Semiring K]

/-- The coefficients of a value at `n` exponents from `m` on. -/
def Poly.segment (p : Poly K) (m : ℤ) (n : ℕ) : Array K :=
  Array.ofFn fun i : Fin n => p.coeff (m + i)

namespace Poly

@[simp] theorem size_segment (p : Poly K) (m : ℤ) (n : ℕ) : (p.segment m n).size = n :=
  Array.size_ofFn

theorem getD_segment (p : Poly K) (m : ℤ) (n i : ℕ) :
    (p.segment m n).getD i 0 = if i < n then p.coeff (m + i) else 0 := by
  rw [segment, getD_ofFn]
  split <;> rfl

variable [BEq K] [LawfulBEq K]

/-- The coefficients below a bound of the degree stand for the whole ordinary polynomial. -/
theorem vectorPolynomial_segment {x : Poly K} (hx : x.variant = .ordinary) {n : ℕ}
    (hn : x.degree < n) : vectorPolynomial (x.segment 0 n) = x.toPolynomial := by
  ext i
  rw [coeff_vectorPolynomial, getD_segment, zero_add, coeff_toPolynomial, ← coeff_natCast hx]
  split
  · rfl
  · exact (coeff_of_degree_lt (by omega)).symm

end Poly

end Segments

section Lists

variable {K : Type} [CommRing K] {A : Mat K} {v : Array K} {m : ℤ} {p : Poly K}

/-- A matrix applied to a vector lists all coefficients of a polynomial from an exponent on. -/
structure ListsCoefficients (A : Mat K) (v : Array K) (m : ℤ) (p : Poly K) : Prop where
  /-- The vector has an entry for every column. -/
  cols_eq : A.cols = v.size
  /-- Row `i` gives the coefficient at exponent `m + i`. -/
  mulVec_eq : A.mulVec v = p.segment m A.rows
  /-- There is a row for every coefficient other than zero. -/
  window : ∀ k, p.coeff k ≠ 0 → m ≤ k ∧ k < m + A.rows

/-- The rows of a matrix leave nothing out if the entries of the product make up the polynomial. -/
theorem listsCoefficients (hcols : A.cols = v.size)
    (h : ∀ k, p.coeff k = shiftedCoeff m (vectorPolynomial (A.mulVec v)) k) :
    ListsCoefficients A v m p where
  cols_eq := hcols
  mulVec_eq := by
    refine eq_of_getD_eq (by rw [Mat.size_mulVec, Poly.size_segment]) fun i => ?_
    rw [Poly.getD_segment]
    split
    · rw [h, shiftedCoeff_add_natCast, coeff_vectorPolynomial]
    · exact getD_of_size_le (by rw [Mat.size_mulVec]; omega)
  window := by
    intro k hk
    by_contra hrows
    refine hk ?_
    by_cases hfirst : m ≤ k
    · rw [h, shiftedCoeff, if_pos hfirst, coeff_vectorPolynomial,
        getD_of_size_le (by rw [Mat.size_mulVec]; omega)]
    · rw [h, shiftedCoeff_of_lt (by omega)]

/-- The Sylvester matrix with as many columns as two vectors have entries multiplies the one by `a`
and the other one by `b`. -/
theorem vectorPolynomial_mulVec_append (a b : Poly K) (u v : Array K) :
    vectorPolynomial ((sylvester a b u.size v.size).mulVec (u ++ v)) =
      a.toPolynomial * vectorPolynomial u + b.toPolynomial * vectorPolynomial v := by
  have hleft : (u ++ v).extract 0 u.size = u := by
    rw [Array.extract_append_left, Array.extract_size]
  have hright : (u ++ v).extract u.size (u ++ v).size = v := by
    rw [Array.size_append, Array.extract_append_right, Array.extract_size]
  rw [vectorPolynomial_mulVec_sylvester a b Array.size_append, hleft, hright]

variable [BEq K] [LawfulBEq K] {a b x y : Poly K}

/-- The banded matrix of `a` lists the coefficients of `a x` from the first exponent of `a` on. -/
theorem listsCoefficients_toeplitz (a : Poly K) (hx : x.variant = .ordinary) {n : ℕ}
    (hn : x.degree < n) :
    ListsCoefficients (toeplitz a n) (x.segment 0 n) a.first (a * x) := by
  have hproduct := vectorPolynomial_mulVec_toeplitz a (x.segment 0 n)
  rw [Poly.size_segment, Poly.vectorPolynomial_segment hx hn] at hproduct
  refine listsCoefficients (Poly.size_segment x 0 n).symm fun k => ?_
  rw [Poly.coeff_mul_eq_shiftedCoeff, hproduct, Poly.first_eq_zero_of_ordinary hx, add_zero]

/-- The Sylvester matrix of `a` and `b` lists the coefficients of `a x + b y`. -/
theorem listsCoefficients_sylvester (ha : a.variant = .ordinary) (hb : b.variant = .ordinary)
    (hx : x.variant = .ordinary) (hy : y.variant = .ordinary) {w₁ w₂ : ℕ} (hxw : x.degree < w₁)
    (hyw : y.degree < w₂) :
    ListsCoefficients (sylvester a b w₁ w₂) (x.segment 0 w₁ ++ y.segment 0 w₂) 0
      (a * x + b * y) := by
  have hax := (Poly.isOrdinary_mul ha hx).variant_eq
  have hby := (Poly.isOrdinary_mul hb hy).variant_eq
  have hfirst := Poly.first_eq_zero_of_ordinary (Poly.isOrdinary_add hax hby).variant_eq
  have hproduct := vectorPolynomial_mulVec_append a b (x.segment 0 w₁) (y.segment 0 w₂)
  rw [Poly.size_segment, Poly.size_segment, Poly.vectorPolynomial_segment hx hxw,
    Poly.vectorPolynomial_segment hy hyw, ← Poly.toPolynomial_mul ha hx,
    ← Poly.toPolynomial_mul hb hy, ← Poly.toPolynomial_add hax hby] at hproduct
  refine listsCoefficients ?_ fun k => ?_
  · rw [cols_sylvester, Array.size_append, Poly.size_segment, Poly.size_segment]
  · rw [hproduct, Poly.coeff_eq_shiftedCoeff, hfirst]

/-- With a positive number of columns above the degree of `x` the banded matrix of `a`, of either
kind, lists the coefficients of the product `a x` from the first exponent of `a` on. With block
widths above the degrees of `x` and `y`, zero included, the Sylvester matrix of `a` and `b` lists
the coefficients of `a x + b y`. Neither matrix leaves out a coefficient other than zero. -/
theorem structured_matrices_multiply :
    (∀ (a : Poly K) {x : Poly K} {c : ℤ}, x.variant = .ordinary → 1 ≤ c → x.degree < c →
      ∃ n p, columnCount? c = .ok n ∧ (n : ℤ) = c ∧ a.mul? x = .ok p ∧
        ListsCoefficients (toeplitz a n) (x.segment 0 n) a.first p) ∧
    ∀ {a b x y : Poly K} {w₁ w₂ : ℤ} (shown : String), a.variant = .ordinary →
      b.variant = .ordinary → x.variant = .ordinary → y.variant = .ordinary → 0 ≤ w₁ → 0 ≤ w₂ →
      x.degree < w₁ → y.degree < w₂ →
      ∃ S p q r, sylvester? a b w₁ w₂ shown = .ok S ∧ a.mul? x = .ok p ∧ b.mul? y = .ok q ∧
        p.add? q = .ok r ∧
        ListsCoefficients S (x.segment 0 w₁.toNat ++ y.segment 0 w₂.toNat) 0 r := by
  constructor
  · intro a x c hx hc hxc
    exact ⟨c.toNat, a * x, if_neg (by omega), by omega, Poly.mul?_eq a x,
      listsCoefficients_toeplitz a hx (by omega)⟩
  · intro a b x y w₁ w₂ shown ha hb hx hy hw₁ hw₂ hxw hyw
    exact ⟨_, _, _, _, if_neg (by omega), Poly.mul?_eq a x, Poly.mul?_eq b y,
      Poly.add?_eq (a * x) (b * y),
      listsCoefficients_sylvester ha hb hx hy (by omega) (by omega)⟩

end Lists

/-- The coefficients of `z⁻¹` times `1 + z` are listed from exponent minus one on. In
`(1 + z) (1 + z) + (1 + z) (-1 - z)` everything cancels, and the Sylvester matrix gives zeros
only. -/
theorem structured_matrices_multiply_linear :
    (Poly.ofCoef #[(1 : ℝ), 1] "z").variant = .ordinary ∧
      (Poly.ofCoef #[(-1 : ℝ), -1] "z").variant = .ordinary ∧
      (Poly.ofCoef #[(1 : ℝ), 1] "z").degree < 2 ∧ (Poly.ofCoef #[(-1 : ℝ), -1] "z").degree < 2 ∧
      (∃ p, (Poly.laurent (-1) #[(1 : ℝ)] "z").mul? (Poly.ofCoef #[1, 1] "z") = .ok p ∧
        (toeplitz (Poly.laurent (-1) #[(1 : ℝ)] "z") 2).mulVec
          ((Poly.ofCoef #[1, 1] "z").segment 0 2) = p.segment (-1) 2) ∧
      ∃ S, sylvester? (Poly.ofCoef #[(1 : ℝ), 1] "z") (Poly.ofCoef #[1, 1] "z") 2 2 "(2, 2)" =
          .ok S ∧
        ∀ i, (S.mulVec ((Poly.ofCoef #[1, 1] "z").segment 0 2 ++
          (Poly.ofCoef #[-1, -1] "z").segment 0 2)).getD i 0 = 0 := by
  let x : Poly ℝ := Poly.ofCoef #[1, 1] "z"
  let y : Poly ℝ := Poly.ofCoef #[-1, -1] "z"
  have hx : x.variant = .ordinary := Poly.variant_ofCoef _ _
  have hy : y.variant = .ordinary := Poly.variant_ofCoef _ _
  have hxdegree : x.degree < 2 := (Poly.degree_linear 1 one_ne_zero "z").trans_lt one_lt_two
  have hydegree : y.degree < 2 :=
    (Poly.degree_linear (-1) (neg_ne_zero.mpr one_ne_zero) "z").trans_lt one_lt_two
  obtain ⟨htoeplitz, hsylvester⟩ := structured_matrices_multiply (K := ℝ)
  obtain ⟨n, p, -, hn, hp, hlists⟩ :=
    htoeplitz (.laurent (-1) #[1] "z") hx one_le_two hxdegree
  obtain rfl : n = 2 := by omega
  obtain ⟨S, p', q, r, hS, hp', hq, hr, hzeros⟩ :=
    hsylvester "(2, 2)" hx hx hx hy zero_le_two zero_le_two hxdegree hydegree
  obtain rfl := Except.ok.inj (hp'.symm.trans (Poly.mul?_eq x x))
  obtain rfl := Except.ok.inj (hq.symm.trans (Poly.mul?_eq x y))
  obtain rfl := Except.ok.inj (hr.symm.trans (Poly.add?_eq (x * x) (x * y)))
  have hcancel : (x * x + x * y).isZero = true := by
    have hxx := (Poly.isOrdinary_mul hx hx).variant_eq
    have hxy := (Poly.isOrdinary_mul hx hy).variant_eq
    rw [Poly.isZero_iff, Poly.toPolynomial_add hxx hxy, Poly.toPolynomial_mul hx hx,
      Poly.toPolynomial_mul hx hy, Poly.toPolynomial_linear, Poly.toPolynomial_linear, C_neg]
    ring
  refine ⟨hx, hy, hxdegree, hydegree, ⟨p, hp, hlists.mulVec_eq⟩, S, hS, fun i => ?_⟩
  change (S.mulVec (x.segment 0 (Int.toNat 2) ++ y.segment 0 (Int.toNat 2))).getD i 0 = 0
  rw [hzeros.mulVec_eq, Poly.getD_segment, (Poly.isZero_iff_coeff _).mp hcancel, ite_self]

end PolynomialEquations
