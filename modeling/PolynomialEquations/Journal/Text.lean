import PolynomialEquations.Journal.Basic
import PolynomialEquations.Decimal.Layout

/-!
# Journals as text

One line for each event, after the level of the event: a warning where an answer may be wrong, and
otherwise a line that only matters for following a computation.
-/

namespace PolynomialEquations

/-- The wording of an obstacle. -/
def SolveObstacle.text : SolveObstacle → String
  | singular => "Singular matrix"
  | notSquare => "Last 2 dimensions of the array must be square"

/-- The name of a boundary. -/
def Boundary.text : Boundary → String
  | imaginaryAxis => "imaginary axis"
  | unitCircle => "unit circle"

namespace Event

/-- Whether an event is a warning. -/
def isWarning {R : Type} : Event R → Bool
  | boundaryRoots .. => true
  | _ => false

/-- The wording of an event. -/
def text : Event Float → String
  | noQuotient dividend divisor =>
    s!"deg(b)={dividend} < deg(a)={divisor}, no polynomial quotient"
  | inexactDivision residual tolerance =>
    s!"division not exact, residual {scientificText residual 3} >= " ++ scientificText tolerance 1
  | kernelChoice dimension => s!"kernel of dimension {dimension}, picking a canonical column"
  | kernelFound dx dy dimension => s!"deg(x)={dx} deg(y)={dy} dim N(S)={dimension}"
  | leastSquares obstacle =>
    obstacle.text ++ "; Sylvester matrix is singular, falling back to least squares..."
  | unverified => "solution of the Sylvester system does not satisfy a·x + b·y = c"
  | optimum value dx dy => s!"|y|₁={fixedText value 6}  deg(x)={dx}  deg(y)={dy}"
  | boundReached bound => s!"dymax={bound} reached without convergence"
  | boundaryRoots curve kept total =>
    s!"spectralfactor(): kept {kept} of {total} roots, a has roots on or near the {curve.text}"

/-- An event as a line: its level and its wording. -/
def line (e : Event Float) : String :=
  (if e.isWarning then "WARNING: " else "DEBUG: ") ++ e.text

end Event

end PolynomialEquations
