import PolynomialEquations.Equation.Diophantine
import PolynomialEquations.Poly.Transform

/-!
# Symmetric equations

Equations that contain an unknown together with its conjugate across the imaginary axis: with one
real unknown, `ã x + a x̃ = b + b̃`, and with two, `ã x + b̃ y = c + d̃`, which is a Diophantine
equation with conjugated data.
-/

namespace PolynomialEquations

variable {R K : Type} [Zero K] [One K] [Add K] [Neg K] [Mul K] [BEq K] [Scalar R K]

/-- The matrix of `x ↦ ã x + a x̃` for real `x` with `c` coefficients. The conjugate of `x` is `x`
with alternating signs. -/
def symmetricMatrix (a : Poly K) (c : Nat) : Mat K :=
  (toeplitz a.axisConj c).add ((toeplitz a c).mul (alternatingSigns c))

/-- The solution `x` of `ã x + a x̃ = b + b̃` in the least squares sense. -/
def symmetricUnknown (kernels : LinearKernels K) (a b : Poly K) : Except Failure (Poly K) := do
  let right := b + b.axisConj
  if right.isZero then return Poly.constant 0 a.symbol
  else
    let dx := right.degree - a.degree
    if dx < 0 then throw (.degreeTooLow right.degree a.degree)
    else
      let M := symmetricMatrix a (dx.toNat + 1)
      let rhs ← padTo right.coef M.rows
      let x ← kernels.leastSquares M rhs
      return Poly.ofCoef x a.symbol

/-- The solution `(x, y)` of `ã x + b̃ y = c + d̃`, under the rules of the Diophantine equation. -/
def symmetricPair [Zero R] [One R] [Add R] [Mul R] [LE R] [DecidableLE R] [LT R] [DecidableLT R]
    (kernels : LinearKernels K) (a b c d : Poly K) (policy : DegreePolicy) (tol : R) :
    Traced R (Option (Poly K × Poly K)) :=
  diophantinePair kernels a.axisConj b.axisConj (c + d.axisConj) policy tol

end PolynomialEquations
