import PolynomialEquations.Value.Reading
import PolynomialEquations.Kernel.Floating
import PolynomialEquations.Analysis.Coprime
import PolynomialEquations.Analysis.Symmetry
import PolynomialEquations.Mixed.Stability

/-!
# Predicates on values

Coprimality, stability and conjugate symmetry for operands of any kind.
-/

namespace PolynomialEquations

namespace Value

/-- Whether two polynomials have no common factor. -/
def isCoprime (a b : Value) : Except Failure Bool := do
  let p ← a.toPolynomial
  let q ← b.toPolynomial
  p.ask₂ (PolynomialEquations.isCoprime realKernels) (PolynomialEquations.isCoprime complexKernels)
    q

/-- Whether all roots lie in the closed unit disk. -/
def isDiskStable (a : Value) : Except Failure Bool := do
  let p ← a.toPolynomial
  p.isDiskStable realRoots complexRoots

/-- Whether all roots lie in the closed left half plane. -/
def isHalfPlaneStable (a : Value) : Except Failure Bool := do
  let p ← a.toPolynomial
  p.isHalfPlaneStable realRoots complexRoots

/-- Whether a polynomial equals its conjugate up to a tolerance, which is zero by default. -/
def isConjSymmetric (a : Value) (tol : Option Value) : Except Failure Bool := do
  let p ← a.toPolynomial
  let t ← (tol.getD (real 0)).toReal
  return p.ask (fun p => PolynomialEquations.isConjSymmetric p t)
    (fun p => PolynomialEquations.isConjSymmetric p t)

end Value

end PolynomialEquations
