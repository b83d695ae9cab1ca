import PolynomialEquations.Mixed.Arithmetic
import PolynomialEquations.Poly.Evaluation

/-!
# Values over the real and the complex numbers

The value of a polynomial whose coefficients may be real or complex at a number that may be real or
complex. It is real when both are.
-/

namespace PolynomialEquations

namespace MixedPoly

variable {R C : Type} [Zero R] [Add R] [Mul R] [Zero C] [Add C] [Mul C] [Scalar R R] [Scalar R C]

/-- The value of a complex polynomial at a real number, whose powers are taken among the real
numbers. -/
def evalAtReal (p : Poly C) (x : R) : C :=
  let v := Poly.nested p.coef (Scalar.ofReal x)
  if p.first = 0 then v else v * Scalar.ofReal (Scalar.power x p.first)

/-- The value at a number. -/
def eval (a : MixedPoly R C) (x : MixedScalar R C) : MixedScalar R C :=
  match a, x with
  | real p, .real x => .real (p.eval x)
  | complex p, .real x => .complex (evalAtReal p x)
  | a, .complex z => .complex (a.toComplex.eval z)

end MixedPoly

end PolynomialEquations
