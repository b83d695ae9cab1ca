import PolynomialEquations.Scalar.Basic

/-!
# Double precision scalars

Double precision numbers and pairs of them as scalars. Products follow the definition of complex
multiplication; quotients divide by the larger part of the divisor first, so that no
intermediate result overflows when the quotient does not; the modulus is rounded once more after
a correction step.
-/

namespace PolynomialEquations

/-- A complex number with double precision parts. -/
structure ComplexFloat where
  /-- The real part. -/
  re : Float
  /-- The imaginary part. -/
  im : Float
  deriving Inhabited, Repr

/-- The distance from one to the next larger double. -/
def machineEpsilon : Float := 2.220446049250313e-16

/-- The nearest integer to `x`, a half going to the even neighbour. -/
def roundHalfEven (x : Float) : Float :=
  let below := x.floor
  let rest := x - below
  if rest < 0.5 then below
  else if 0.5 < rest then below + 1
  else if rest == 0.5 then
    let half := below * 0.5
    if half.floor == half then below else below + 1
  else x

/-- The hypotenuse for legs `0 ≤ b ≤ a` of moderate size: a square root and one correction by
the remaining difference of squares. -/
def correctedHypotenuse (a b : Float) : Float :=
  let h := (a * a + b * b).sqrt
  if h ≤ 2 * b then
    let d := h - b
    h - (a * (2 * d - a) + (d - 2 * (a - b)) * d) / (2 * h)
  else
    let d := h - a
    h - (2 * d * (a - 2 * b) + ((4 * d - b) * b + d * d)) / (2 * h)

/-- The size above which the square of a leg may overflow. -/
def largeLeg : Float := 1e150

/-- The size below which the square of a leg may vanish. -/
def smallLeg : Float := 1e-150

/-- The power of two with exponent `-600`, by which legs of extreme size are scaled. -/
def legScale : Float := 2.409919865102884e-181

/-- The length of the vector with legs `x` and `y`; infinite as soon as a leg is. -/
def hypotenuse (x y : Float) : Float :=
  let x := x.abs
  let y := y.abs
  if x == 1.0 / 0.0 || y == 1.0 / 0.0 then 1.0 / 0.0
  else if x != x || y != y then x + y
  else
    let a := if x < y then y else x
    let b := if x < y then x else y
    if b == 0 || a * machineEpsilon * 0.5 > b then a + b
    else if a > largeLeg then correctedHypotenuse (a * legScale) (b * legScale) / legScale
    else if b < smallLeg then correctedHypotenuse (a / legScale) (b / legScale) * legScale
    else correctedHypotenuse a b

namespace ComplexFloat

instance : Zero ComplexFloat := ⟨⟨0, 0⟩⟩

instance : One ComplexFloat := ⟨⟨1, 0⟩⟩

instance : Add ComplexFloat := ⟨fun x y => ⟨x.re + y.re, x.im + y.im⟩⟩

instance : Neg ComplexFloat := ⟨fun x => ⟨-x.re, -x.im⟩⟩

instance : Sub ComplexFloat := ⟨fun x y => ⟨x.re - y.re, x.im - y.im⟩⟩

instance : Mul ComplexFloat :=
  ⟨fun x y => ⟨x.re * y.re - x.im * y.im, x.re * y.im + x.im * y.re⟩⟩

/-- Two complex numbers are equal when both parts are. -/
instance : BEq ComplexFloat := ⟨fun x y => x.re == y.re && x.im == y.im⟩

/-- The quotient of two complex numbers. A divisor with both parts zero divides each part of the
dividend by zero. -/
def quotient (x y : ComplexFloat) : ComplexFloat :=
  if y.im.abs ≤ y.re.abs then
    if y.re.abs == 0 && y.im.abs == 0 then ⟨x.re / y.re.abs, x.im / y.re.abs⟩
    else
      let ratio := y.im / y.re
      let scale := 1 / (y.re + y.im * ratio)
      ⟨(x.re + x.im * ratio) * scale, (x.im - x.re * ratio) * scale⟩
  else
    let ratio := y.re / y.im
    let scale := 1 / (y.im + y.re * ratio)
    ⟨(x.re * ratio + x.im) * scale, (x.im * ratio - x.re) * scale⟩

instance : Div ComplexFloat := ⟨quotient⟩

/-- The number `x` with imaginary part zero. -/
def ofReal (x : Float) : ComplexFloat := ⟨x, 0⟩

/-- The absolute value. -/
def modulus (z : ComplexFloat) : Float := hypotenuse z.re z.im

/-- The complex conjugate. -/
def conj (z : ComplexFloat) : ComplexFloat := ⟨z.re, -z.im⟩

/-- The product of the factors `z`, `z²`, `z⁴`, ... selected by the binary digits of `n`, times
`acc`; `fuel` bounds the number of digits. -/
def binaryPower (acc z : ComplexFloat) (n : Nat) : Nat → ComplexFloat
  | 0 => acc
  | fuel + 1 =>
    if n = 0 then acc
    else binaryPower (if n % 2 = 1 then acc * z else acc) (z * z) (n / 2) fuel

/-- The power with exponent `k`. Exponents of fewer than three digits multiply, larger ones go
through polar coordinates; a negative power of zero is undefined in both parts. -/
def power (z : ComplexFloat) (k : Int) : ComplexFloat :=
  let n := k.natAbs
  if k = 0 then 1
  else if z.re == 0 && z.im == 0 then
    if 0 < k then 0 else ⟨0.0 / 0.0, 0.0 / 0.0⟩
  else if k = 1 then z
  else if k = 2 then z * z
  else if k = 3 then (z * z) * z
  else if n < 100 then
    let p := binaryPower 1 z n 7
    if k < 0 then 1 / p else p
  else
    let e := Float.ofInt k
    let r := Float.pow z.modulus e
    let angle := e * Float.atan2 z.im z.re
    ⟨r * angle.cos, r * angle.sin⟩

/-- The principal square root, whose real part is not negative. -/
def sqrt (z : ComplexFloat) : ComplexFloat :=
  let m := z.modulus
  if m == 0 then 0
  else if 0 ≤ z.re then
    let t := ((m + z.re) * 0.5).sqrt
    ⟨t, z.im / (2 * t)⟩
  else
    let t := ((m - z.re) * 0.5).sqrt
    ⟨z.im.abs / (2 * t), if z.im < 0 then -t else t⟩

end ComplexFloat

instance : RealFunctions Float where
  sqrt := Float.sqrt
  nearestInteger := roundHalfEven

/-- Doubles as real scalars. -/
instance : Scalar Float Float where
  ofReal x := x
  re x := x
  im _ := 0
  conj x := x
  modulus := Float.abs
  power x k := Float.pow x (Float.ofInt k)

/-- Pairs of doubles as complex scalars. -/
instance : Scalar Float ComplexFloat where
  ofReal := ComplexFloat.ofReal
  re := ComplexFloat.re
  im := ComplexFloat.im
  conj := ComplexFloat.conj
  modulus := ComplexFloat.modulus
  power := ComplexFloat.power

end PolynomialEquations
