import PolynomialEquations.Kernel.Basic
import PolynomialEquations.Matrix.Structured
import PolynomialEquations.Poly.Arithmetic

/-!
# The Diophantine equation

The equation `a x + b y = c` in two unknown polynomials. A policy says which unknown is kept below
the degree of the other one's coefficient; the other degree makes the system of linear equations
square. A singular system is solved in the least squares sense, and every solution is checked
before it is given out.
-/

namespace PolynomialEquations

/-- Which unknown of `a x + b y = c` is kept at its least degree. -/
inductive DegreePolicy where
  /-- The degree of `y` is one less than that of `a`. -/
  | minY
  /-- The degree of `x` is one less than that of `b`. -/
  | minX
  deriving Repr, DecidableEq

/-- The size of the linear system for `a x + b y = c`. -/
structure SystemSize where
  /-- The degree of `x`. -/
  degreeX : Int
  /-- The degree of `y`. -/
  degreeY : Int
  /-- The number of equations, one for each exponent. -/
  equations : Int
  deriving Repr, DecidableEq

/-- The size of the square system for coefficients and right side of the given degrees. -/
def DegreePolicy.size (policy : DegreePolicy) (da db dc : Int) : SystemSize :=
  match policy with
  | .minY =>
    let dy := da - 1
    let m := max (max (da + 1) (db + 1 + dy)) (dc + 1)
    ⟨m - da - 1, dy, m⟩
  | .minX =>
    let dx := db - 1
    let m := max (max (db + 1) (da + 1 + dx)) (dc + 1)
    ⟨dx, m - db - 1, m⟩

variable {R K : Type} [Zero K] [Add K] [Neg K] [Mul K] [BEq K]

/-- Whether the largest coefficient of `lhs - c` is at most `tol` relative to the largest one of
`c`, or to one if that is larger. -/
def satisfies [Scalar R K] [Zero R] [One R] [Add R] [Mul R] [LE R] [DecidableLE R] [LT R]
    [DecidableLT R] (lhs c : Poly K) (tol : R) : Bool :=
  let scale : R := maximumNorm c.coef
  decide (maximumNorm (lhs - c).coef ≤ tol * (if 1 < scale then scale else 1))

/-- The solution of the system `S v = rhs`: by elimination, and in the least squares sense if that
fails. -/
def solveOrFit (kernels : LinearKernels K) (S : Mat K) (rhs : Array K) :
    Traced R (Array K) :=
  if S.rows = S.cols ∧ rhs.size ≠ S.rows then Traced.fail .unusable
  else
    match kernels.solve S rhs with
    | .ok v => return v
    | .error obstacle => do
      Traced.note (.leastSquares obstacle)
      Traced.ofExcept (kernels.leastSquares S rhs)

/-- The unknown with the given coefficients, or the zero polynomial for a negative degree. -/
def unknownOf (degree : Int) (v : Array K) (symbol : String) : Poly K :=
  if degree < 0 then Poly.constant 0 symbol else Poly.ofCoef v symbol

/-- The pair read off the solution of the linear system for `a x + b y = c`, before it is
checked. -/
def candidatePair (kernels : LinearKernels K) (a b c : Poly K) (policy : DegreePolicy) :
    Traced R (Poly K × Poly K) := do
  if a.isZero || b.isZero then Traced.fail .zeroCoefficient
  else
    let size := policy.size a.degree b.degree c.degree
    let w₁ := size.degreeX + 1
    let w₂ := size.degreeY + 1
    let S ← Traced.ofExcept (sylvester? a b w₁ w₂ (showWidths w₁ w₂))
    let rhs ← Traced.ofExcept (padTo c.coef size.equations)
    let v ← solveOrFit kernels S rhs
    let x := unknownOf size.degreeX (v.extract 0 w₁.toNat) a.symbol
    let y := unknownOf size.degreeY (v.extract w₁.toNat v.size) a.symbol
    return (x, y)

/-- The pair `(x, y)` if it satisfies `a x + b y = c`, and nothing otherwise. -/
def verifiedPair [Scalar R K] [Zero R] [One R] [Add R] [Mul R] [LE R] [DecidableLE R] [LT R]
    [DecidableLT R] (a b c : Poly K) (tol : R) (pair : Poly K × Poly K) :
    Traced R (Option (Poly K × Poly K)) := do
  if satisfies (a * pair.1 + b * pair.2) c tol then return some pair
  else
    Traced.note .unverified
    return none

/-- The solution `(x, y)` of `a x + b y = c`, or nothing if the one found does not satisfy the
equation. -/
def diophantinePair [Scalar R K] [Zero R] [One R] [Add R] [Mul R] [LE R] [DecidableLE R] [LT R]
    [DecidableLT R] (kernels : LinearKernels K) (a b c : Poly K) (policy : DegreePolicy)
    (tol : R) : Traced R (Option (Poly K × Poly K)) := do
  let pair ← candidatePair kernels a b c policy
  verifiedPair a b c tol pair

end PolynomialEquations
