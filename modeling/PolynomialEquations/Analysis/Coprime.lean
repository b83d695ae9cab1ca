import PolynomialEquations.Kernel.Basic
import PolynomialEquations.Matrix.Structured

/-!
# Coprime polynomials

Two polynomials have a common factor exactly when the square Sylvester matrix built from them is
singular.
-/

namespace PolynomialEquations

/-- Whether `a` and `b` have no common factor besides constants. The common factors of a polynomial
and zero are those of the polynomial. -/
def isCoprime {K : Type} [Zero K] [BEq K] (kernels : LinearKernels K) (a b : Poly K) :
    Except Failure Bool := do
  if a.isZero || b.isZero then
    return (a.degree == 0 && b.isZero) || (b.degree == 0 && a.isZero)
  else
    let S ← resultantMatrix a b
    let r ← kernels.rankOf S
    return (r : Int) == a.degree + b.degree

end PolynomialEquations
