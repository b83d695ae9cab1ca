/-!
# Scalars

The coefficients of a polynomial are real or complex numbers. Every algorithm of the library is
written once for a scalar type `K` over a type `R` of real numbers; `K` may be `R` itself. Field
operations and order come from the usual notation classes, and the two classes of this file add
what those do not name: real and imaginary parts, conjugation, modulus, integer powers, square
roots and rounding to an integer.
-/

namespace PolynomialEquations

/-- What the library asks of its real numbers beyond arithmetic and order. -/
class RealFunctions (R : Type) where
  /-- The non-negative square root. -/
  sqrt : R → R
  /-- The nearest integer; a half goes to the even neighbour. -/
  nearestInteger : R → R

/-- A scalar type `K` over the real numbers `R`: the real or the complex numbers. -/
class Scalar (R : outParam Type) (K : Type) where
  /-- A real number as a scalar. -/
  ofReal : R → K
  /-- The real part. -/
  re : K → R
  /-- The imaginary part, zero for a real scalar. -/
  im : K → R
  /-- The complex conjugate; a real scalar is its own conjugate. -/
  conj : K → K
  /-- The absolute value. -/
  modulus : K → R
  /-- The power with an integer exponent. -/
  power : K → Int → K

section Sums

variable {K : Type} [Zero K] [Add K]

/-- The sum `f 0 + f 1 + ... + f (n - 1)`, taken from the left and starting at zero. -/
def sumTo (f : Nat → K) : Nat → K
  | 0 => 0
  | n + 1 => sumTo f n + f n

@[simp] theorem sumTo_zero (f : Nat → K) : sumTo f 0 = 0 := rfl

@[simp] theorem sumTo_succ (f : Nat → K) (n : Nat) : sumTo f (n + 1) = sumTo f n + f n := rfl

end Sums

section Order

variable {R : Type} [Add R] [LE R] [DecidableLE R]

/-- The larger of two real numbers. Two values that cannot be compared give their sum, which
then cannot be compared with anything either. -/
def larger (a b : R) : R :=
  if b ≤ a then a else if a ≤ b then b else a + b

/-- The largest of zero and `f 0, ..., f (n - 1)`. -/
def largestTo [Zero R] (f : Nat → R) : Nat → R
  | 0 => 0
  | n + 1 => larger (largestTo f n) (f n)

end Order

section Norms

variable {R K : Type} [Scalar R K]

/-- The sum of the squared moduli of the entries of `v`. -/
def squaredNorm [Zero R] [Add R] [Mul R] (v : Array K) : R :=
  v.foldl (fun s x => s + (Scalar.re x * Scalar.re x + Scalar.im x * Scalar.im x)) 0

/-- The 2-norm of a vector. -/
def euclideanNorm [Zero R] [Add R] [Mul R] [RealFunctions R] (v : Array K) : R :=
  RealFunctions.sqrt (squaredNorm v)

/-- The largest modulus of an entry of `v`, zero for the empty vector. -/
def maximumNorm [Zero R] [Add R] [LE R] [DecidableLE R] (v : Array K) : R :=
  v.foldl (fun m x => larger m (Scalar.modulus x)) 0

end Norms

section Tolerances

variable (R : Type) [OfScientific R]

/-- The relative size below which a pivot, a column or a coefficient counts as zero. -/
def negligible : R := 1e-12

/-- The bound on the part of a dividend outside the range of the divisor below which a division
counts as exact. -/
def divisionTolerance : R := 1e-8

/-- The relative bound on the residual of an accepted solution of a linear equation. -/
def residualTolerance : R := 1e-8

end Tolerances

end PolynomialEquations
