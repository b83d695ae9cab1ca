import PolynomialEquations.Poly.Basic
import PolynomialEquations.Scalar.Basic

/-!
# Arithmetic of polynomials

Sums and products of two polynomials of either kind, and quotients by a scalar. A result is
ordinary when both operands are, and takes the symbol of the left one.
-/

namespace PolynomialEquations

namespace Poly

variable {K : Type} [Zero K] [BEq K]

/-- The polynomial with every coefficient changed by `f`. -/
def mapCoef (f : K → K) (a : Poly K) : Poly K :=
  assemble a.variant a.first (a.coef.map f) a.symbol

/-- The negative. -/
def neg [Neg K] (a : Poly K) : Poly K := a.mapCoef (-·)

/-- The coefficients of a sum, exponent by exponent over the union of both windows. -/
def sums [Add K] (a b : Poly K) : Array K :=
  let lo := min a.first b.first
  let hi := max a.last b.last
  Array.ofFn fun i : Fin (hi - lo + 1).toNat =>
    0 + a.coeff (lo + (i : Nat)) + b.coeff (lo + (i : Nat))

/-- The sum. -/
def add [Add K] (a b : Poly K) : Poly K :=
  assemble (a.variant.join b.variant) (min a.first b.first) (sums a b) a.symbol

/-- The difference. -/
def sub [Add K] [Neg K] (a b : Poly K) : Poly K := a.add b.neg

/-- Entry `n` of the convolution of `u` and `v`: the sum of `u i * v (n - i)` over the indices
`i` for which both factors exist. -/
def convolutionEntry [Add K] [Mul K] (u v : Array K) (n : Nat) : K :=
  let low := n + 1 - v.size
  sumTo (fun i => u.getD (low + i) 0 * v.getD (n - (low + i)) 0) (min u.size (n + 1) - low)

/-- The convolution of two vectors. -/
def convolution [Add K] [Mul K] (u v : Array K) : Array K :=
  Array.ofFn fun n : Fin (u.size + v.size - 1) => convolutionEntry u v n

/-- The product. -/
def mul [Add K] [Mul K] (a b : Poly K) : Poly K :=
  assemble (a.variant.join b.variant) (a.first + b.first) (convolution a.coef b.coef) a.symbol

/-- The product with a scalar. -/
def scalarMul [Add K] [Mul K] (a : Poly K) (t : K) : Poly K := a.mul (constant t a.symbol)

/-- The quotient by a scalar. -/
def divScalar [Div K] (a : Poly K) (t : K) : Poly K := a.mapCoef (· / t)

/-- The polynomial with every coefficient conjugated. -/
def conj {R : Type} [Scalar R K] (a : Poly K) : Poly K := a.mapCoef Scalar.conj

/-- The polynomial with every coefficient of modulus at most `tolerance` set to zero. -/
def chop {R : Type} [Scalar R K] [LE R] [DecidableLE R] (tolerance : R) (a : Poly K) : Poly K :=
  a.mapCoef fun x => if Scalar.modulus x ≤ tolerance then 0 else x

section Checked

/-! The operations on values that callers hand in refuse a result that is ordinary although its
window starts at a negative exponent. -/

/-- As `mapCoef`, with a check of the window. -/
def mapCoef? (f : K → K) (a : Poly K) : Except Failure (Poly K) :=
  assemble? a.variant a.first (a.coef.map f) a.symbol

/-- As `neg`, with a check of the window. -/
def neg? [Neg K] (a : Poly K) : Except Failure (Poly K) := a.mapCoef? (-·)

/-- As `add`, with a check of the window. -/
def add? [Add K] (a b : Poly K) : Except Failure (Poly K) :=
  assemble? (a.variant.join b.variant) (min a.first b.first) (sums a b) a.symbol

/-- As `mul`, with a check of the window. -/
def mul? [Add K] [Mul K] (a b : Poly K) : Except Failure (Poly K) :=
  assemble? (a.variant.join b.variant) (a.first + b.first) (convolution a.coef b.coef) a.symbol

/-- As `divScalar`, with a check of the window. -/
def divScalar? [Div K] (a : Poly K) (t : K) : Except Failure (Poly K) := a.mapCoef? (· / t)

end Checked

instance [Neg K] : Neg (Poly K) := ⟨neg⟩

instance [Add K] : Add (Poly K) := ⟨add⟩

instance [Add K] [Neg K] : Sub (Poly K) := ⟨sub⟩

instance [Add K] [Mul K] : Mul (Poly K) := ⟨mul⟩

end Poly

end PolynomialEquations
