import PolynomialEquations.Mixed.Arithmetic
import PolynomialEquations.Poly.Transform

/-!
# Transformations over the real and the complex numbers

The Laurent form, the conjugates, the reciprocal, the shifts and the scalings of a polynomial whose
coefficients may be real or complex. All but the scaling by a complex number keep the kind of the
coefficients.
-/

namespace PolynomialEquations

namespace MixedPoly

variable {R C : Type} [Zero R] [BEq R] [Zero C] [BEq C]

/-- The same values as a Laurent polynomial. -/
def toLaurent (a : MixedPoly R C) : MixedPoly R C := a.map Poly.toLaurent Poly.toLaurent

/-- The product with the `k`-th power of the variable, as a Laurent polynomial. -/
def shift (k : Int) (a : MixedPoly R C) : MixedPoly R C := a.map (Poly.shift k) (Poly.shift k)

variable [Scalar R R] [Scalar R C]

/-- The conjugate across the imaginary axis. -/
def axisConj [Neg R] [Neg C] (a : MixedPoly R C) : MixedPoly R C :=
  a.map Poly.axisConj Poly.axisConj

/-- The conjugate across the unit circle. -/
def circleConj (a : MixedPoly R C) : MixedPoly R C := a.map Poly.circleConj Poly.circleConj

/-- The polynomial with every coefficient conjugated. -/
def conj (a : MixedPoly R C) : MixedPoly R C := a.map Poly.conj Poly.conj

/-- The polynomial with every coefficient of modulus at most `tolerance` set to zero. -/
def chop [LE R] [DecidableLE R] (tolerance : R) (a : MixedPoly R C) : MixedPoly R C :=
  a.map (Poly.chop tolerance) (Poly.chop tolerance)

/-- The conjugated coefficients of an ordinary polynomial in reverse order. -/
def reciprocal : MixedPoly R C → Except Failure (MixedPoly R C)
  | real p => p.reciprocal.map real
  | complex p => p.reciprocal.map complex

/-- The variable replaced by a multiple of itself. The powers of a real factor are taken among the
real numbers, also for a complex polynomial. -/
def scale [Mul R] [Mul C] (factor : MixedScalar R C) (a : MixedPoly R C) : MixedPoly R C :=
  match a, factor with
  | real p, .real t => real (p.scale t)
  | complex p, .real t =>
    complex (p.mapWithExponent fun k x => x * Scalar.ofReal (Scalar.power t k))
  | a, .complex z => complex (a.toComplex.scale z)

end MixedPoly

end PolynomialEquations
