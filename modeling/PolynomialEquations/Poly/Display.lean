import PolynomialEquations.Poly.Basic
import PolynomialEquations.Scalar.Floating
import PolynomialEquations.Decimal.Layout

/-!
# Polynomials as text

A polynomial is shown as the sum of its non-zero terms, lowest exponent first. Complex coefficients
stand in parentheses with the signs of both parts, zero parts included.
-/

namespace PolynomialEquations

/-- A real coefficient as text. -/
def realText (x : Float) : String := generalText x 6

/-- A complex coefficient as text. -/
def complexText (z : ComplexFloat) : String :=
  "(" ++ generalText z.re 6 ++ signedText (generalText z.im 6) ++ "j)"

namespace Poly

variable {K : Type} [Zero K] [BEq K]

/-- The term with coefficient text `c` and exponent `k`. -/
def termText (c : String) (symbol : String) (k : Int) : String :=
  if k = 0 then c
  else if k = 1 then c ++ "*" ++ symbol
  else c ++ "*" ++ symbol ++ "^" ++ toString k

/-- The sum of the non-zero terms, with a subtraction in place of each sum with a negative
term. -/
def sumText (text : K → String) (a : Poly K) : String :=
  if a.isZero then "0"
  else
    let terms := a.coef.toList.zipIdx.filterMap fun (x, i) =>
      if x == 0 then none else some (termText (text x) a.symbol (a.first + (i : Nat)))
    (String.intercalate " + " terms).replace "+ -" "- "

/-- The name of a kind of polynomial. -/
def variantName : Variant → String
  | .ordinary => "Polynomial"
  | .laurent => "LaurentPolynomial"

/-- The polynomial as text. -/
def text (coefText : K → String) (a : Poly K) : String :=
  variantName a.variant ++ "(" ++ a.sumText coefText ++ ")"

end Poly

end PolynomialEquations
