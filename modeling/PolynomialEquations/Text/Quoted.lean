import PolynomialEquations.Text.Unprintable

/-!
# Quoted text

Text between quotes, with escapes for backslashes, for the quote itself and for characters that
have no printed form.
-/

namespace PolynomialEquations

/-- The hexadecimal digits of `n`, filled up with zeros to `width`. -/
def hexText (n width : Nat) : String :=
  let cs := Nat.toDigits 16 n
  String.ofList (List.replicate (width - cs.length) '0' ++ cs)

/-- A character between quotes `q`. -/
def escapedChar (q c : Char) : String :=
  if c == q || c == '\\' then "\\" ++ c.toString
  else if c == '\n' then "\\n"
  else if c == '\r' then "\\r"
  else if c == '\t' then "\\t"
  else if isUnprintable c then
    let n := c.toNat
    if n < 256 then "\\x" ++ hexText n 2
    else if n < 65536 then "\\u" ++ hexText n 4
    else "\\U" ++ hexText n 8
  else c.toString

/-- The text between single quotes, or between double quotes if it holds single quotes and no
double ones. -/
def quoted (s : String) : String :=
  let q := if s.contains '\'' && !s.contains '"' then '"' else '\''
  q.toString ++ String.join (s.toList.map (escapedChar q)) ++ q.toString

end PolynomialEquations
