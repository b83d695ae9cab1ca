import PolynomialEquations.Poly.Roots

/-!
# Stability

Predicates on the location of all roots of a polynomial; the boundary belongs to both regions.
-/

namespace PolynomialEquations

variable {R K C : Type} [Scalar R C] [LE R] [DecidableLE R]

/-- Whether all roots lie in the closed unit disk. -/
def isDiskStable [One R] (finder : RootFinder K C) (a : Poly K) : Except Failure Bool := do
  let roots ← a.roots finder
  return roots.all fun r => decide (Scalar.modulus r ≤ 1)

/-- Whether all roots lie in the closed left half plane. -/
def isHalfPlaneStable [Zero R] (finder : RootFinder K C) (a : Poly K) : Except Failure Bool := do
  let roots ← a.roots finder
  return roots.all fun r => decide (Scalar.re r ≤ 0)

end PolynomialEquations
