import PolynomialEquations.Text.Character
import PolynomialEquations.Decimal.Rounding

/-!
# Numerals

Integers and decimal numbers read from text. Blanks around a numeral are skipped, a sign may stand
in front, and single underscores may stand between digits. Decimal numbers may have a point and an
exponent, and there are names for infinity and for the value that is not a number.
-/

namespace PolynomialEquations

/-- The digits at the start of a text and what follows them. An underscore belongs to them when
it stands between two digits; `inside` says whether a digit has just been read. -/
def digitRun (inside : Bool) : List Char → List Nat × List Char
  | [] => ([], [])
  | c :: rest =>
    match digitValue? c with
    | some d =>
      let (ds, after) := digitRun true rest
      (d :: ds, after)
    | none =>
      if inside && c == '_' && (rest.head?.bind digitValue?).isSome then digitRun false rest
      else ([], c :: rest)

/-- The number with the given decimal digits. -/
def numberOfDigits (ds : List Nat) : Nat := ds.foldl (fun n d => 10 * n + d) 0

/-- Whether there is a minus sign at the start, and what follows the sign. -/
def splitSign : List Char → Bool × List Char
  | '-' :: rest => (true, rest)
  | '+' :: rest => (false, rest)
  | cs => (false, cs)

/-- The characters of a text without the blanks at both ends. -/
def trimmedChars (s : String) : List Char :=
  ((s.toList.dropWhile isBlank).reverse.dropWhile isBlank).reverse

/-- The integer that a text denotes. -/
def integerNumeral? (s : String) : Option Int :=
  let (negative, cs) := splitSign (trimmedChars s)
  match digitRun false cs with
  | ([], _) => none
  | (ds, []) =>
    let n : Int := numberOfDigits ds
    some (if negative then -n else n)
  | _ => none

/-- The exponent at the end of a decimal numeral, zero if there is none. -/
def exponentPart? : List Char → Option Int
  | [] => some 0
  | c :: rest =>
    if c == 'e' || c == 'E' then
      let (negative, cs) := splitSign rest
      match digitRun false cs with
      | ([], _) => none
      | (ds, []) =>
        let n : Int := numberOfDigits ds
        some (if negative then -n else n)
      | _ => none
    else none

/-- The double nearest to the number with the given digits, the last of which has exponent `k`.
Exponents far outside the range of doubles are decided without computing a power. -/
def doubleOfDigits (ds : List Nat) (k : Int) : Float :=
  let ds := ds.dropWhile (· == 0)
  let top := (ds.length : Int) + k
  if ds.isEmpty || top < -400 then 0
  else if 400 < top then 1.0 / 0.0
  else doubleOf (numberOfDigits ds) k

/-- The unsigned decimal number that a text denotes. -/
def unsignedNumeral? (cs : List Char) : Option Float :=
  let name := String.ofList (cs.map Char.toLower)
  if name == "inf" || name == "infinity" then some (1.0 / 0.0)
  else if name == "nan" then some (0.0 / 0.0)
  else
    let (whole, rest) := digitRun false cs
    let (places, rest) := match rest with
      | '.' :: rest => digitRun false rest
      | rest => ([], rest)
    if whole.isEmpty && places.isEmpty then none
    else (exponentPart? rest).map fun e => doubleOfDigits (whole ++ places) (e - places.length)

/-- The decimal number that a text denotes. -/
def decimalNumeral? (s : String) : Option Float :=
  let (negative, cs) := splitSign (trimmedChars s)
  (unsignedNumeral? cs).map fun x => if negative then -x else x

end PolynomialEquations
