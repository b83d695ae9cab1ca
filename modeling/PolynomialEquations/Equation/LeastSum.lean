import PolynomialEquations.Kernel.Basic
import PolynomialEquations.Matrix.Structured

/-!
# The equation with least absolute sum

The equation `a x + y = c` with real coefficients and the sum of the moduli of the coefficients of
`y` as small as possible. For a fixed degree of `y` this is a linear program in the coefficients of
`x` and the positive and negative parts of those of `y`. The degree is raised until the optimum
improves by less than a given amount, or up to a bound.
-/

namespace PolynomialEquations

variable {R : Type} [Zero R] [One R] [Neg R] [Sub R]

/-- The program that makes the absolute sum of `b - T x` least, with the columns of `T` followed
by those of the identity and of its negative. -/
def residualProgram (T : Mat R) (b : Array R) : LinearProgram R :=
  let n := T.rows
  let k := T.cols
  { cost := Array.replicate k 0 ++ Array.replicate (2 * n) 1
    matrix := Mat.ofFn n (k + 2 * n) fun i j =>
      if j < k then T.get i j
      else if j = k + i then 1
      else if j = k + n + i then -1
      else 0
    rhs := b
    free := k }

/-- A solution with its absolute sum. -/
structure LeastSum (R : Type) where
  /-- The coefficients of `x`. -/
  x : Array R
  /-- The coefficients of `y`. -/
  y : Array R
  /-- The absolute sum of `y`. -/
  value : R

/-- The best `x` and `y = b - T x`. -/
def leastResidual (solver : ProgramSolver R) (T : Mat R) (b : Array R) :
    Except Failure (LeastSum R) := do
  let best ← solver (residualProgram T b)
  let n := T.rows
  let k := T.cols
  let positive := best.point.extract k (k + n)
  let negative := best.point.extract (k + n) (k + n + n)
  return ⟨best.point.extract 0 k, positive.zipWith (· - ·) negative, best.value⟩

variable [LT R] [DecidableLT R]

/-- Whether the optimum has improved on an earlier one by less than `emax`. -/
def hasSettled [Scalar R R] (previous : Option R) (value emax : R) : Bool :=
  match previous with
  | none => false
  | some p => decide (Scalar.modulus (p - value) < emax)

/-- Solve for the degree `dy` of `y`, for the right side `b` filled up to that degree. -/
def solveDegree (solver : ProgramSolver R) (a : Poly R) (da dy : Int) (b : Array R) :
    Traced R (LeastSum R) := do
  let dx := dy - da
  let best ← Traced.ofExcept (leastResidual solver (toeplitz a (dx.toNat + 1)) b)
  Traced.note (.optimum best.value dx dy)
  return best

/-- Solve for the degree `dy` of `y` and raise it while the optimum has not settled, at most
`steps` times. -/
def raiseDegree [Scalar R R] (solver : ProgramSolver R) (a : Poly R) (da bound : Int) (emax : R) :
    Nat → Int → Array R → Option R → Traced R (LeastSum R)
  | 0, dy, b, previous => do
    let best ← solveDegree solver a da dy b
    if hasSettled previous best.value emax then return best
    else
      Traced.note (.boundReached bound)
      return best
  | steps + 1, dy, b, previous => do
    let best ← solveDegree solver a da dy b
    if hasSettled previous best.value emax then return best
    else raiseDegree solver a da bound emax steps (dy + 1) (b.push 0) (some best.value)

/-- The least degree of `y` that is tried. -/
def leastDegree [BEq R] (a c : Poly R) : Int := max a.degree c.degree

/-- The solution `(x, y)` of `a x + y = c` with `y` of least absolute sum, and that sum. -/
def leastSumPair [Scalar R R] [BEq R] (solver : ProgramSolver R) (a c : Poly R) (bound : Int)
    (emax : R) : Traced R (Poly R × Poly R × R) := do
  if a.isZero then Traced.fail .zeroGenerator
  else
    let least := leastDegree a c
    if bound < least then Traced.fail (.boundTooLow (toString bound) least)
    else
      let b ← Traced.ofExcept (padTo c.coef (least + 1))
      let best ← raiseDegree solver a a.degree bound emax (bound - least).toNat least b none
      return (Poly.ofCoef best.x a.symbol, Poly.ofCoef best.y a.symbol, best.value)

end PolynomialEquations
