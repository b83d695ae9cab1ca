import PolynomialEquations.Journal.Basic
import PolynomialEquations.Mixed.Basic

/-!
# Spectral factors

The stable polynomial `x` with `x̃ x = a` for a conjugate-symmetric polynomial `a`: the conjugate is
taken across the imaginary axis for an ordinary polynomial and across the unit circle for a Laurent
polynomial. The stable half of the roots of `a` gives `x` up to a factor, and one coefficient of
`a` gives the factor. When not exactly half of the roots are stable, a warning is written.
-/

namespace PolynomialEquations

variable {R K C : Type} [Zero K] [BEq K] [Scalar R K] [Zero C] [One C] [Neg C] [Add C] [Mul C]
  [BEq C] [Scalar R C] [Zero R] [One R] [Add R] [Mul R] [Div R] [BEq R] [LE R] [DecidableLE R]
  [LT R] [DecidableLT R] [Scalar R R] [RealFunctions R] [OfScientific R]

/-- The factor with its roots in the open left half plane, from all roots of `a`. -/
def axisFactor (a : Poly K) (roots : List C) : Traced R (MixedPoly R C) := do
  let stable := roots.filter fun r => decide (Scalar.re r < 0)
  if 2 * (stable.length : Int) ≠ a.degree then
    Traced.note (.boundaryRoots .imaginaryAxis stable.length roots.length)
  let size := RealFunctions.sqrt (Scalar.modulus (a.coeff a.degree))
  return (polyOfRoots stable a.symbol).scaleBy size

/-- The factor with its roots in the open unit disk, from all roots of `a`. -/
def circleFactor (a : Poly K) (roots : List C) : Traced R (MixedPoly R C) := do
  let stable := roots.filter fun r => decide (Scalar.modulus r < 1)
  if 2 * stable.length ≠ roots.length then
    Traced.note (.boundaryRoots .unitCircle stable.length roots.length)
  let x := polyOfRoots stable a.symbol
  let square : R := x.ask (fun p => squaredNorm p.coef) (fun p => squaredNorm p.coef)
  let size := RealFunctions.sqrt (Scalar.modulus (a.coeff 0) / square)
  return x.scaleBy size

/-- The stable factor of a polynomial, with real coefficients if those of the product of its linear
factors are real up to rounding. -/
def stableFactor (finder : RootFinder K C) (a : Poly K) : Traced R (MixedPoly R C) :=
  match a.variant with
  | .ordinary => do
    let roots ← Traced.ofExcept (a.roots finder)
    axisFactor a roots
  | .laurent =>
    if a.first ≠ -a.last then Traced.fail (.unsymmetricWindow a.first a.last)
    else do
      let roots ← Traced.ofExcept (a.roots finder)
      circleFactor a roots

/-- The stable factor of a real polynomial, which is real. -/
def realStableFactor (finder : RootFinder R C) (a : Poly R) : Traced R (Poly R) := do
  let x ← stableFactor finder a
  return x.realPart

end PolynomialEquations
