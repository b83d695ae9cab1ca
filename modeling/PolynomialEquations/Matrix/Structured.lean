import PolynomialEquations.Matrix.Basic
import PolynomialEquations.Poly.Basic

/-!
# Structured matrices

Matrices that express multiplication by a polynomial on coefficient vectors: the lower triangular
banded Toeplitz matrix of `x ↦ a x`, the Sylvester matrix of `(x, y) ↦ a x + b y`, and the
diagonal of alternating signs, which replaces the variable by its negative.
-/

namespace PolynomialEquations

variable {K : Type} [Zero K]

/-- The banded Toeplitz matrix of `a` with `c` columns, whose column `j` holds the stored
coefficients of `a` from row `j` on. -/
def toeplitz (a : Poly K) (c : Nat) : Mat K :=
  let band := a.coef
  Mat.ofFn (band.size + c - 1) c fun i j => if j ≤ i then band.getD (i - j) 0 else 0

/-- The number of columns of a banded Toeplitz matrix, which must be positive. -/
def columnCount? (c : Int) : Except Failure Nat :=
  if c < 1 then .error .noColumns else .ok c.toNat

/-- The block of a Sylvester matrix with `w` columns; without columns it has no rows either. -/
def sylvesterBlock (a : Poly K) (w : Nat) : Mat K :=
  if w = 0 then Mat.zeros 0 0 else toeplitz a w

/-- The Sylvester matrix with `w₁` columns for `a` and `w₂` columns for `b`. The shorter block is
filled up with zero rows at the bottom. -/
def sylvester (a b : Poly K) (w₁ w₂ : Nat) : Mat K :=
  let A := sylvesterBlock a w₁
  let B := sylvesterBlock b w₂
  Mat.ofFn (max A.rows B.rows) (w₁ + w₂) fun i j =>
    if j < w₁ then A.get i j else B.get i (j - w₁)

/-- Two block widths as shown in a message. -/
def showWidths (w₁ w₂ : Int) : String := s!"({w₁}, {w₂})"

/-- The Sylvester matrix for two widths that must not be negative; `shown` is how a message
shows them. -/
def sylvester? (a b : Poly K) (w₁ w₂ : Int) (shown : String) : Except Failure (Mat K) :=
  if w₁ < 0 ∨ w₂ < 0 then .error (.negativeWidth shown)
  else .ok (sylvester a b w₁.toNat w₂.toNat)

/-- The widths of the Sylvester matrix in which `x` has degree `dx` and `y` the degree that makes
`a x` and `b y` end at the same exponent; `dx` defaults to one less than the degree of `b`. -/
def defaultWidths [BEq K] (a b : Poly K) (dx : Option Int) : Int × Int :=
  let dx := dx.getD (b.degree - 1)
  (dx + 1, a.degree + dx - b.degree + 1)

/-- The square Sylvester matrix of `a` and `b`, whose determinant is their resultant. -/
def resultantMatrix [BEq K] (a b : Poly K) : Except Failure (Mat K) :=
  sylvester? a b b.degree a.degree (showWidths b.degree a.degree)

/-- The diagonal matrix of size `n` with entries `1, -1, 1, ...`. -/
def alternatingSigns [One K] [Neg K] (n : Nat) : Mat K :=
  Mat.ofFn n n fun i j => if i = j then (if i % 2 = 0 then 1 else -1) else 0

end PolynomialEquations
