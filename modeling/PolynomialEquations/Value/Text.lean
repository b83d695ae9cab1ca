import PolynomialEquations.Value.Basic
import PolynomialEquations.Text.Quoted
import PolynomialEquations.Poly.Display

/-!
# Values as text

How a message shows a value: texts are quoted, real numbers have the shortest digits that read
back, complex numbers stand in parentheses unless their real part is a plain zero, and the entries
of lists are separated by commas.
-/

namespace PolynomialEquations

/-- A part of a complex number as text, without decimal places when they are zero. -/
def partText (x : Float) : String :=
  let s := shortestText x
  if s.endsWith ".0" then String.ofList (s.toList.take (s.length - 2)) else s

/-- A complex number as text. -/
def ComplexFloat.text (z : ComplexFloat) : String :=
  if z.re == 0 && !hasSign z.re then partText z.im ++ "j"
  else "(" ++ partText z.re ++ signedText (partText z.im) ++ "j)"

/-- A polynomial as text. -/
def polynomialText (p : FloatPoly) : String := p.ask (Poly.text realText) (Poly.text complexText)

/-- The entries of an array as texts. -/
def Numbers.texts : Numbers → List String
  | real xs => xs.toList.map shortestText
  | complex zs => zs.toList.map ComplexFloat.text

/-- Texts separated by commas. -/
def commaSeparated (texts : List String) : String := String.intercalate ", " texts

mutual

/-- A value as text. -/
def Value.shown : Value → String
  | .none => "None"
  | .truth true => "True"
  | .truth false => "False"
  | .integer n => toString n
  | .real x => shortestText x
  | .complex z => z.text
  | .text s => quoted s
  | .list xs => "[" ++ commaSeparated (Value.shownAll xs) ++ "]"
  | .tuple [x] => "(" ++ x.shown ++ ",)"
  | .tuple xs => "(" ++ commaSeparated (Value.shownAll xs) ++ ")"
  | .array t => "array([" ++ commaSeparated t.data.texts ++ "])"
  | .poly p => polynomialText p

/-- The texts of several values. -/
def Value.shownAll : List Value → List String
  | [] => []
  | x :: xs => x.shown :: Value.shownAll xs

end

end PolynomialEquations
