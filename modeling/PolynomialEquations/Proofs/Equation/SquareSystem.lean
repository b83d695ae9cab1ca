import PolynomialEquations.Equation.Diophantine
import PolynomialEquations.Proofs.Journal
import PolynomialEquations.Proofs.Kernel.LeastSquares
import PolynomialEquations.Proofs.Matrix.Sylvester

/-!
# The square system of a Diophantine equation

The degrees that a policy chooses always make the linear system for `a x + b y = c` square, with
room for the right side, so nothing can fail before its solution is checked: the candidate pair is
the solution of the system, cut behind the first block. With exact kernels that solution is the one
of least squares, whether or not the system is singular.
-/

namespace PolynomialEquations

open Polynomial

section Size

variable {K : Type} [CommRing K] [BEq K]

/-- The system that a policy chooses for `a x + b y = c` in numbers of columns and rows: `w₁`
columns for `x`, `w₂` for `y`, and `m` equations. -/
structure SquareSystem (policy : DegreePolicy) (a b c : Poly K) (w₁ w₂ m : ℕ) : Prop where
  /-- The first block has one column more than the degree of `x`. -/
  degreeX_eq : (policy.size a.degree b.degree c.degree).degreeX = w₁ - 1
  /-- The second block has one column more than the degree of `y`. -/
  degreeY_eq : (policy.size a.degree b.degree c.degree).degreeY = w₂ - 1
  /-- The number of equations. -/
  equations_eq : (policy.size a.degree b.degree c.degree).equations = m
  /-- There are as many unknowns as equations. -/
  square : w₁ + w₂ = m
  /-- The product with `x` ends below exponent `m`. -/
  left_le : a.toPolynomial.natDegree + w₁ ≤ m
  /-- The product with `y` ends below exponent `m`. -/
  right_le : b.toPolynomial.natDegree + w₂ ≤ m
  /-- The right side ends below exponent `m`. -/
  rhs_le : c.degree + 1 ≤ m
  /-- One of the blocks has `m` rows. -/
  reaches : 0 < w₁ ∧ a.toPolynomial.natDegree + w₁ = m ∨ 0 < w₂ ∧ b.toPolynomial.natDegree + w₂ = m
  /-- Every equation that can be solved has a solution that ends below exponent `m`. -/
  room : a.toPolynomial.natDegree + b.toPolynomial.natDegree ≤ m
  /-- A small `y` stays below the degree of `a`. -/
  minY_eq : policy = .minY → w₂ = a.toPolynomial.natDegree
  /-- A small `x` stays below the degree of `b`. -/
  minX_eq : policy = .minX → w₁ = b.toPolynomial.natDegree

variable [LawfulBEq K]

/-- Every policy chooses a square system. -/
theorem exists_squareSystem {a b c : Poly K} (ha : a.IsOrdinary) (hb : b.IsOrdinary)
    (hc : c.IsOrdinary) (hazero : a.isZero = false) (hbzero : b.isZero = false)
    (policy : DegreePolicy) : ∃ w₁ w₂ m, SquareSystem policy a b c w₁ w₂ m := by
  have hda := ha.degree_eq hazero
  have hdb := hb.degree_eq hbzero
  have hdc := hc.neg_one_le_degree
  let m := (policy.size a.degree b.degree c.degree).equations.toNat
  cases policy with
  | minY =>
    refine ⟨m - a.toPolynomial.natDegree, a.toPolynomial.natDegree, m, ?_⟩
    constructor <;> simp only [DegreePolicy.size, m, reduceCtorEq, false_imp_iff, true_imp_iff] <;>
      omega
  | minX =>
    refine ⟨b.toPolynomial.natDegree, m - b.toPolynomial.natDegree, m, ?_⟩
    constructor <;> simp only [DegreePolicy.size, m, reduceCtorEq, false_imp_iff, true_imp_iff] <;>
      omega

namespace SquareSystem

variable {policy : DegreePolicy} {a b c : Poly K} {w₁ w₂ m : ℕ}

/-- The Sylvester matrix of the system has as many rows as the system has equations. -/
theorem rows_sylvester (hs : SquareSystem policy a b c w₁ w₂ m) (ha : a.IsOrdinary)
    (hb : b.IsOrdinary) : (sylvester a b w₁ w₂).rows = m := by
  have hleft := hs.left_le
  have hright := hs.right_le
  rw [PolynomialEquations.rows_sylvester, rows_sylvesterBlock, rows_sylvesterBlock, ha.size_coef,
    hb.size_coef]
  rcases hs.reaches with ⟨hpos, heq⟩ | ⟨hpos, heq⟩
  · rw [if_neg (by omega)]
    split <;> omega
  · rw [if_neg (show ¬w₂ = 0 by omega)]
    split <;> omega

omit [LawfulBEq K] in
/-- Only the degrees decide about the widths of the blocks. -/
theorem widths_eq (hs : SquareSystem policy a b c w₁ w₂ m) {a' b' c' : Poly K} {w₁' w₂' m' : ℕ}
    (hs' : SquareSystem policy a' b' c' w₁' w₂' m') (ha : a'.degree = a.degree)
    (hb : b'.degree = b.degree) (hc : c'.degree = c.degree) : w₁' = w₁ ∧ w₂' = w₂ := by
  have hfirst := hs'.degreeX_eq
  have hsecond := hs'.degreeY_eq
  rw [ha, hb, hc, hs.degreeX_eq] at hfirst
  rw [ha, hb, hc, hs.degreeY_eq] at hsecond
  omega

omit [LawfulBEq K] in
/-- The matrix of the system can be built. -/
theorem sylvester?_eq (hs : SquareSystem policy a b c w₁ w₂ m) (shown : String) :
    sylvester? a b ((policy.size a.degree b.degree c.degree).degreeX + 1)
      ((policy.size a.degree b.degree c.degree).degreeY + 1) shown =
        .ok (sylvester a b w₁ w₂) := by
  rw [hs.degreeX_eq, hs.degreeY_eq, Int.sub_add_cancel, Int.sub_add_cancel, sylvester?,
    if_neg (by omega), Int.toNat_natCast, Int.toNat_natCast]

/-- The right side of the system can be filled up to its size. -/
theorem exists_rhs (hs : SquareSystem policy a b c w₁ w₂ m) (hc : c.IsOrdinary) :
    ∃ rhs, padTo c.coef (policy.size a.degree b.degree c.degree).equations = .ok rhs ∧
      rhs.size = m := by
  have hsize := hc.size_coef_eq
  have hrhs := hs.rhs_le
  have hleft := hs.left_le
  have hright := hs.right_le
  have hpos : 0 < m := by
    rcases hs.reaches with ⟨hpos, _⟩ | ⟨hpos, _⟩ <;> omega
  rw [hs.equations_eq]
  exact exists_padTo (by omega)

end SquareSystem

/-- A vector of unknowns as long as its degree says stands for the polynomial of its entries. -/
theorem toPolynomial_unknownOf {w : ℕ} {v : Array K} (hv : v.size ≤ w) (s : String) :
    (unknownOf (w - 1) v s).toPolynomial = vectorPolynomial v := by
  unfold unknownOf
  by_cases hw : (w : ℤ) - 1 < 0
  · rw [if_pos hw, Poly.toPolynomial_constant_zero]
    ext n
    rw [coeff_zero, coeff_vectorPolynomial, getD_of_size_le (by omega)]
  · rw [if_neg hw, Poly.toPolynomial_ofCoef]

/-- An unknown is an ordinary polynomial. -/
theorem isOrdinary_unknownOf (d : ℤ) (v : Array K) (s : String) :
    (unknownOf d v s).IsOrdinary := by
  unfold unknownOf
  split
  · exact Poly.isOrdinary_constant 0 s
  · exact Poly.isOrdinary_ofCoef v s

omit [LawfulBEq K] in
/-- An unknown gets the symbol asked for. -/
theorem symbol_unknownOf (d : ℤ) (v : Array K) (s : String) : (unknownOf d v s).symbol = s := by
  unfold unknownOf
  split <;> exact Poly.symbol_ofCoef _ _

/-- An unknown has at most the degree that was asked for. -/
theorem degree_unknownOf_le {w : ℕ} {v : Array K} (hv : v.size ≤ w) (s : String) :
    (unknownOf (w - 1) v s).degree ≤ w - 1 := by
  have hlt : (unknownOf (w - 1) v s).degree < w := by
    rw [(isOrdinary_unknownOf _ _ _).degree_lt_iff, toPolynomial_unknownOf hv]
    exact degree_vectorPolynomial_lt hv
  omega

/-- Two unknowns as the widths of the blocks allow them. -/
structure FittingPair (w₁ w₂ : ℕ) (x y : Poly K) : Prop where
  /-- The first unknown is an ordinary polynomial. -/
  ordinary_fst : x.IsOrdinary
  /-- The second unknown is an ordinary polynomial. -/
  ordinary_snd : y.IsOrdinary
  /-- The first unknown has fewer coefficients than the first block has columns, or as many. -/
  degree_fst_le : x.degree ≤ w₁ - 1
  /-- The second unknown has fewer coefficients than the second block has columns, or as many. -/
  degree_snd_le : y.degree ≤ w₂ - 1

/-- The unknowns read off a vector with one entry for every column fit the blocks. -/
theorem fittingPair_unknownOf {w₁ w₂ : ℕ} {v : Array K} (hv : v.size = w₁ + w₂) (s : String) :
    FittingPair w₁ w₂ (unknownOf (w₁ - 1) (v.extract 0 w₁) s)
      (unknownOf (w₂ - 1) (v.extract w₁ v.size) s) := by
  refine ⟨isOrdinary_unknownOf _ _ _, isOrdinary_unknownOf _ _ _, ?_, ?_⟩
  · exact degree_unknownOf_le (by rw [Array.size_extract]; omega) s
  · exact degree_unknownOf_le (by rw [Array.size_extract]; omega) s

end Size

section Candidate

variable {R K : Type}

/-- Elimination or least squares gives a vector of the right size. -/
theorem exists_solveOrFit {kernels : LinearKernels K} (hk : kernels.ReturnsSizes) {S : Mat K}
    {rhs : Array K} (hsquare : S.rows = S.cols) (hrhs : rhs.size = S.rows) :
    ∃ v, (solveOrFit kernels S rhs : Traced R _).outcome = .ok v ∧ v.size = S.cols := by
  unfold solveOrFit
  rw [if_neg (fun h => h.2 hrhs)]
  cases hsolve : kernels.solve S rhs with
  | ok v => exact ⟨v, rfl, hk.solve_size hsquare hrhs hsolve⟩
  | error obstacle =>
    obtain ⟨v, hok, hsize⟩ := hk.leastSquares_size hrhs
    exact ⟨v, (Traced.outcome_note_bind _ _).trans hok, hsize⟩

/-- Exact kernels find the least squares solution of every square system, singular or not. -/
theorem isLeastSquares_solveOrFit [RCLike K] {kernels : LinearKernels K}
    (hk : kernels.SolvesExactly) {S : Mat K} {rhs v : Array K} (hsquare : S.rows = S.cols)
    (hrhs : rhs.size = S.rows) (hv : (solveOrFit kernels S rhs : Traced R _).outcome = .ok v) :
    IsLeastSquares S rhs v := by
  unfold solveOrFit at hv
  rw [if_neg (fun h => h.2 hrhs)] at hv
  by_cases hS : S.IsSingular
  · obtain ⟨obstacle, herror⟩ := hk.solve_error hsquare hrhs hS
    obtain ⟨w, hok, hw⟩ := hk.leastSquares_ok hrhs
    rw [herror] at hv
    have hwv := hok.symm.trans ((Traced.outcome_note_bind _ _).symm.trans hv)
    obtain rfl := Except.ok.inj hwv
    exact hw
  · obtain ⟨w, hok, hsize, hw⟩ := hk.solve_ok hsquare hrhs hS
    rw [hok] at hv
    obtain rfl := Except.ok.inj hv
    exact isLeastSquares_of_unique hrhs hsize hw fun u hu hsolves =>
      Mat.eq_of_mulVec_eq hsquare hS hu hsize (hsolves.trans hw.symm)

variable [CommRing K] [BEq K] [LawfulBEq K]

/-- With kernels that return vectors of the right size there is always a candidate pair: the
solution of the system, cut behind the first block. -/
theorem SquareSystem.exists_candidatePair {kernels : LinearKernels K} (hk : kernels.ReturnsSizes)
    {a b c : Poly K} {policy : DegreePolicy} {w₁ w₂ m : ℕ}
    (hs : SquareSystem policy a b c w₁ w₂ m)
    (ha : a.IsOrdinary) (hb : b.IsOrdinary) (hc : c.IsOrdinary)
    (hazero : a.isZero = false) (hbzero : b.isZero = false) :
    ∃ rhs v, padTo c.coef (policy.size a.degree b.degree c.degree).equations = .ok rhs ∧
      rhs.size = m ∧ v.size = m ∧
      (solveOrFit kernels (sylvester a b w₁ w₂) rhs : Traced R _).outcome = .ok v ∧
      (candidatePair kernels a b c policy : Traced R _).outcome =
        .ok (unknownOf (w₁ - 1) (v.extract 0 w₁) a.symbol,
          unknownOf (w₂ - 1) (v.extract w₁ v.size) a.symbol) := by
  obtain ⟨rhs, hpad, hrhs⟩ := hs.exists_rhs hc
  have hrows := hs.rows_sylvester ha hb
  have hcols : (sylvester a b w₁ w₂).cols = m := hs.square
  obtain ⟨v, hv, hsize⟩ := exists_solveOrFit (R := R) hk (hrows.trans hcols.symm)
    (hrhs.trans hrows.symm)
  refine ⟨rhs, v, hpad, hrhs, hsize.trans hcols, hv, ?_⟩
  have hwidth : ((policy.size a.degree b.degree c.degree).degreeX + 1).toNat = w₁ := by
    rw [hs.degreeX_eq, Int.sub_add_cancel, Int.toNat_natCast]
  unfold candidatePair
  rw [if_neg (by simp [hazero, hbzero]), Traced.outcome_ofExcept_bind (hs.sylvester?_eq _),
    Traced.outcome_ofExcept_bind hpad, hwidth, Traced.outcome_bind_of_ok hv, hs.degreeX_eq,
    hs.degreeY_eq]
  rfl

end Candidate

end PolynomialEquations
