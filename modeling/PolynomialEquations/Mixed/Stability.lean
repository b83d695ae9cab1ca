import PolynomialEquations.Analysis.Stability
import PolynomialEquations.Mixed.Basic

/-!
# Stability over the real and the complex numbers

The roots of a polynomial are complex numbers, whether its coefficients are real or complex. Either
sort of coefficients has a root finder of its own.
-/

namespace PolynomialEquations

namespace MixedPoly

variable {R C : Type} [Scalar R C] [LE R] [DecidableLE R]

/-- Whether all roots lie in the closed unit disk. -/
def isDiskStable [One R] (ofReal : RootFinder R C) (ofComplex : RootFinder C C)
    (a : MixedPoly R C) : Except Failure Bool :=
  a.ask (PolynomialEquations.isDiskStable ofReal) (PolynomialEquations.isDiskStable ofComplex)

/-- Whether all roots lie in the closed left half plane. -/
def isHalfPlaneStable [Zero R] (ofReal : RootFinder R C) (ofComplex : RootFinder C C)
    (a : MixedPoly R C) : Except Failure Bool :=
  a.ask (PolynomialEquations.isHalfPlaneStable ofReal)
    (PolynomialEquations.isHalfPlaneStable ofComplex)

end MixedPoly

end PolynomialEquations
