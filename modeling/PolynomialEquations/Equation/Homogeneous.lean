import PolynomialEquations.Kernel.Basic
import PolynomialEquations.Matrix.Structured
import PolynomialEquations.Poly.Arithmetic

/-!
# The homogeneous equation

The equation `a x + b y = 0` with `y` of least degree. The pair `(-b, a)` solves it; as long as
the Sylvester matrix for the next smaller degrees has a kernel, a vector of the kernel gives a
smaller pair. Where the kernel leaves a choice, the vector does not depend on the basis found
except through its columns.
-/

namespace PolynomialEquations

variable {R K : Type} [Zero K] [One K] [Add K] [Neg K] [Sub K] [Mul K] [Div K] [BEq K]
  [Scalar R K] [Zero R] [Add R] [Mul R] [Div R] [BEq R] [LE R] [DecidableLE R] [LT R]
  [DecidableLT R] [RealFunctions R] [OfScientific R]

/-- The position of the largest of the first `n` numbers of `f`, the earliest of equal ones. A
number that differs from itself counts as largest. -/
def largestIndex (f : Nat → R) : Nat → Nat
  | 0 => 0
  | n + 1 =>
    let i := largestIndex f n
    if f i == f i && !decide (f n ≤ f i) then n else i

/-- The vector as a multiple of norm one whose largest entry is real and positive. -/
def canonicalDirection (v : Array K) : Array K :=
  let size : K := Scalar.ofReal (euclideanNorm v)
  let u := v.map (· / size)
  let top := u.getD (largestIndex (fun i => Scalar.modulus (u.getD i 0)) u.size) 0
  let turn := Scalar.ofReal (Scalar.modulus top) / top
  u.map (· * turn)

/-- A number rounded to eight decimal places. -/
def roundedToEight (x : R) : R := RealFunctions.nearestInteger (x * 1e8) / 1e8

/-- What directions are ordered by: the rounded real parts, then the rounded imaginary parts. -/
def directionKey (v : Array K) : List R :=
  (v.toList.map fun x => roundedToEight (Scalar.re x)) ++
    v.toList.map fun x => roundedToEight (Scalar.im x)

/-- Whether one list of numbers comes before another at the first position where they differ. -/
def precedes : List R → List R → Bool
  | x :: xs, y :: ys => if x == y then precedes xs ys else decide (x < y)
  | [], _ :: _ => true
  | _, [] => false

/-- The direction with the least key, the earliest of equal ones. -/
def leastDirection (v : Array K) : List (Array K) → Array K
  | [] => v
  | u :: us =>
    leastDirection (if precedes (directionKey u) (directionKey v) then u else v) us

/-- The vector chosen from the kernel whose basis the columns of `N` are. -/
def kernelVector (N : Mat K) : Traced R (Array K) := do
  let directions := (List.range N.cols).map fun j => canonicalDirection (N.col j)
  if 1 < N.cols then Traced.note (.kernelChoice N.cols)
  match directions with
  | [] => Traced.fail .unusable
  | v :: vs => return leastDirection v vs

/-- The smallest pair found by lowering the widths of both blocks one at a time from `w₁` and
`w₂` on, as long as there is a kernel. -/
def smallerPair (kernels : LinearKernels K) (a b : Poly K) :
    Nat → Nat → Option (Poly K × Poly K) → Traced R (Option (Poly K × Poly K))
  | w₁ + 1, w₂ + 1, found => do
    let N ← Traced.ofExcept (kernels.nullspace (sylvester a b (w₁ + 1) (w₂ + 1)))
    Traced.note (.kernelFound w₁ w₂ N.cols)
    if N.cols = 0 then return found
    else
      let v ← kernelVector N
      let x := Poly.ofCoef (v.extract 0 (w₁ + 1)) a.symbol
      let y := Poly.ofCoef (v.extract (w₁ + 1) v.size) a.symbol
      smallerPair kernels a b w₁ w₂ (some (x, y))
  | _, _, found => return found

/-- A pair smaller than `(-b, a)`, if there is one, for polynomials `a` and `b` other than
zero. -/
def reducedPair (kernels : LinearKernels K) (a b : Poly K) :
    Traced R (Option (Poly K × Poly K)) :=
  if a.isZero || b.isZero then Traced.fail .zeroCoefficient
  else smallerPair kernels a b b.degree.toNat a.degree.toNat none

/-- The solution `(x, y)` of `a x + b y = 0` with `y` of least degree. -/
def homogeneousPair (kernels : LinearKernels K) (a b : Poly K) :
    Traced R (Poly K × Poly K) := do
  let found ← reducedPair kernels a b
  return found.getD (-b, a)

end PolynomialEquations
