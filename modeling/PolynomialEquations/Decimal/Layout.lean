import PolynomialEquations.Decimal.Rounding

/-!
# Number texts

The layouts in which doubles appear in texts: a fixed number of significant digits in scientific
form, a fixed number of decimal places, six significant digits in whichever form is shorter, and
the shortest digits that read back.
-/

namespace PolynomialEquations

/-- The text of a double that is not a finite number, if it is one. -/
def specialText (x : Float) : Option String :=
  if x != x then some "nan"
  else if x == 1.0 / 0.0 then some "inf"
  else if x == -1.0 / 0.0 then some "-inf"
  else none

/-- An exponent with its sign and at least two digits. -/
def exponentText (e : Int) : String :=
  let digits := toString e.natAbs
  (if e < 0 then "-" else "+") ++ (if digits.length < 2 then "0" ++ digits else digits)

/-- The first digit, and the others after a point if there are any. -/
def pointed (cs : List Char) : String :=
  match cs with
  | [] => "0"
  | [c] => c.toString
  | c :: rest => c.toString ++ "." ++ String.ofList rest

/-- The digits of a finite double to `count` places, zero having the digit zero throughout. -/
def digitsOf (x : Float) (count : Nat) : List Char × Int :=
  if x == 0 then (List.replicate count '0', 0)
  else
    let d := (Magnitude.ofFloat x).significant count
    (digitChars d.digits, d.exponent)

/-- The text in scientific form with `places` digits after the point. -/
def scientificText (x : Float) (places : Nat) : String :=
  match specialText x with
  | some s => s
  | none =>
    let (cs, e) := digitsOf x (places + 1)
    (if hasSign x then "-" else "") ++ pointed cs ++ "e" ++ exponentText e

/-- The text with `places` digits after the point. -/
def fixedText (x : Float) (places : Nat) : String :=
  match specialText x with
  | some s => s
  | none =>
    let n := (Magnitude.ofFloat x).fixed places
    let cs := digitChars n
    let cs := List.replicate (places + 1 - cs.length) '0' ++ cs
    let whole := String.ofList (cs.take (cs.length - places))
    (if hasSign x then "-" else "") ++ whole ++
      (if places = 0 then "" else "." ++ String.ofList (cs.drop (cs.length - places)))

/-- Digits written without an exponent, the first one having exponent `e`. -/
def positional (cs : List Char) (e : Int) : String :=
  if e < 0 then "0." ++ String.ofList (List.replicate (-e - 1).toNat '0' ++ cs)
  else
    let n := e.toNat + 1
    let whole := cs.take n ++ List.replicate (n - cs.length) '0'
    match cs.drop n with
    | [] => String.ofList whole
    | rest => String.ofList whole ++ "." ++ String.ofList rest

/-- The text with `count` significant digits less trailing zeros: in scientific form for exponents
below `-4` or from `count` on. -/
def generalText (x : Float) (count : Nat) : String :=
  match specialText x with
  | some s => s
  | none =>
    let (cs, e) := digitsOf x count
    let cs := match trimDigits cs with
      | [] => ['0']
      | cs => cs
    (if hasSign x then "-" else "") ++
      (if e < -4 ∨ (count : Int) ≤ e then pointed cs ++ "e" ++ exponentText e
      else positional cs e)

/-- The text with a plus sign where there is no minus sign. -/
def signedText (s : String) : String := if s.startsWith "-" then s else "+" ++ s

/-- The shortest text that reads back: positional with at least one decimal place for exponents
from `-4` to `15`. -/
def shortestText (x : Float) : String :=
  match specialText x with
  | some s => s
  | none =>
    let sign := if hasSign x then "-" else ""
    if x == 0 then sign ++ "0.0"
    else
      let d := (Magnitude.ofFloat x).shortest x.abs 1 17
      let cs := match trimDigits (digitChars d.digits) with
        | [] => ['0']
        | cs => cs
      if d.exponent < -4 ∨ 16 ≤ d.exponent then
        sign ++ pointed cs ++ "e" ++ exponentText d.exponent
      else
        let s := positional cs d.exponent
        sign ++ (if s.contains '.' then s else s ++ ".0")

end PolynomialEquations
