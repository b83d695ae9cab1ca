/-!
# Decimal digits of doubles

A finite double is an integer times a power of two, so its decimal digits are found by exact
integer arithmetic. The two questions asked are for a given number of significant digits and for a
given number of decimal places; in both a tie goes to the even digit. From the first, the shortest
digits that read back as the same double are found.
-/

namespace PolynomialEquations

/-- The quotient of two natural numbers rounded to the nearest, ties to even. -/
def roundedQuotient (num den : Nat) : Nat :=
  let q := num / den
  let r := num % den
  if 2 * r < den then q
  else if den < 2 * r then q + 1
  else q + q % 2

/-- A rounded quotient is off by at most half a unit. -/
theorem roundedQuotient_near {num den : Nat} (h : 0 < den) :
    2 * num ≤ (2 * roundedQuotient num den + 1) * den ∧
      2 * roundedQuotient num den * den ≤ 2 * num + den := by
  have hdiv : den * (num / den) + num % den = num := Nat.div_add_mod num den
  have hmod : num % den < den := Nat.mod_lt num h
  have hcomm : num / den * den = den * (num / den) := Nat.mul_comm ..
  have hparity : num / den % 2 = 0 ∨ num / den % 2 = 1 := by omega
  unfold roundedQuotient
  simp only
  split
  · constructor <;> (simp only [Nat.add_mul, Nat.mul_assoc, hcomm]; omega)
  · split
    · constructor <;> (simp only [Nat.add_mul, Nat.mul_add, Nat.mul_assoc, hcomm]; omega)
    · rcases hparity with hp | hp <;>
        constructor <;> (simp only [hp, Nat.add_mul, Nat.mul_add, Nat.mul_assoc, hcomm]; omega)

/-- The power of ten with exponent `k`. -/
def tenTo (k : Nat) : Nat := Nat.pow 10 k

/-- The power of two with exponent `k`. -/
def twoTo (k : Nat) : Nat := Nat.pow 2 k

/-- A non-zero finite double without its sign: the value `num / den`. -/
structure Magnitude where
  /-- The numerator. -/
  num : Nat
  /-- The denominator. -/
  den : Nat
  deriving Repr

/-- Whether the sign bit of a double is set; this also holds of negative zero. -/
def hasSign (x : Float) : Bool := x.toBits >>> 63 == 1

/-- The absolute value of a finite double as a quotient. -/
def Magnitude.ofFloat (x : Float) : Magnitude :=
  let bits := x.toBits.toNat
  let fraction := bits % twoTo 52
  let exponent := bits / twoTo 52 % twoTo 11
  let m := if exponent = 0 then fraction else fraction + twoTo 52
  let e := if exponent = 0 then 1 else exponent
  if 1075 ≤ e then ⟨m * twoTo (e - 1075), 1⟩ else ⟨m, twoTo (1075 - e)⟩

/-- The value `num / den` multiplied by the power of ten with exponent `k`. -/
def Magnitude.scaled (v : Magnitude) (k : Int) : Magnitude :=
  if 0 ≤ k then ⟨v.num * tenTo k.toNat, v.den⟩ else ⟨v.num, v.den * tenTo (-k).toNat⟩

/-- Decimal digits with the exponent of the first one: the value `digits / 10 ^ (count - 1)` times
the power of ten with exponent `exponent`, where `count` is the number of digits. -/
structure Digits where
  /-- The digits as one number without leading zeros. -/
  digits : Nat
  /-- The exponent of the first digit. -/
  exponent : Int
  deriving Repr, DecidableEq

/-- The decimal digits of a natural number. -/
def digitChars (n : Nat) : List Char := Nat.toDigits 10 n

/-- The exponent of the first decimal digit of a positive magnitude. -/
def Magnitude.decimalExponent (v : Magnitude) : Int :=
  let guess : Int := ((digitChars v.num).length : Int) - (digitChars v.den).length
  let w := v.scaled (-guess)
  if w.num < w.den then guess - 1 else guess

/-- The positive magnitude rounded to `count` significant digits. -/
def Magnitude.significant (v : Magnitude) (count : Nat) : Digits :=
  let e := v.decimalExponent
  let w := v.scaled ((count : Int) - 1 - e)
  let n := roundedQuotient w.num w.den
  if n = tenTo count then ⟨n / 10, e + 1⟩ else ⟨n, e⟩

/-- The magnitude rounded to a multiple of `10 ^ -places`, counted in such units. -/
def Magnitude.fixed (v : Magnitude) (places : Nat) : Nat :=
  let w := v.scaled places
  roundedQuotient w.num w.den

/-- The double nearest to `n` times the power of ten with exponent `k`. -/
def doubleOf (n : Nat) (k : Int) : Float :=
  if 0 ≤ k then Float.ofScientific n false k.toNat else Float.ofScientific n true (-k).toNat

/-- The neighbours of a positive magnitude on the grid of `count` digits that read back as `x`, the
nearer one first. -/
def Magnitude.readingBack (v : Magnitude) (x : Float) (count : Nat) : List Digits :=
  let e := v.decimalExponent
  let k := (count : Int) - 1 - e
  let w := v.scaled k
  let below := w.num / w.den
  let near := roundedQuotient w.num w.den
  let far := if near = below then below + 1 else below
  ([near, far].filter fun n => doubleOf n (-k) == x).map fun n =>
    if n = tenTo count then ⟨n / 10, e + 1⟩ else ⟨n, e⟩

/-- The fewest digits, from `count` on and at most `more` further ones, that read back as `x`. -/
def Magnitude.shortest (v : Magnitude) (x : Float) (count : Nat) : Nat → Digits
  | 0 => v.significant count
  | more + 1 =>
    match v.readingBack x count with
    | d :: _ => d
    | [] => v.shortest x (count + 1) more

/-- The digits without trailing zeros. -/
def trimDigits (cs : List Char) : List Char := (cs.reverse.dropWhile (· == '0')).reverse

end PolynomialEquations
