import PolynomialEquations.Kernel.Elimination
import PolynomialEquations.Kernel.SingularValues
import PolynomialEquations.Kernel.Eigenvalues
import PolynomialEquations.Kernel.Simplex

/-!
# The kernels for doubles

The kernels of this folder put together for double precision scalars. Matrices are scaled by a
power of two before their singular values are computed, so that squares neither overflow nor
vanish.
-/

namespace PolynomialEquations

/-- The power of two that brings `x` between one half and one; one if `x` is zero or not
finite. -/
def normalizingPower (x : Float) : Float :=
  if x == 0 || !(x - x == 0) then 1
  else
    let (_, e) := x.frExp
    Float.scaleB 1 (max (-1000) (min 1000 (-e)))

section Scaled

variable {K : Type} [Zero K] [Scalar Float K] [Mul K]

/-- The power of two that makes the largest modulus in `A` close to one. -/
def Mat.normalizer (A : Mat K) : Float := normalizingPower (maximumNorm A.entries)

/-- The matrix with every entry multiplied by `f`. -/
def Mat.scaled (A : Mat K) (f : Float) : Mat K := A.map (· * Scalar.ofReal f)

end Scaled

/-- The nearest multiple of the power of two with exponent `-45`. Numbers below one in size that
agree up to rounding errors become equal. -/
def onGrid (x : Float) : Float := roundHalfEven (x * 35184372088832) / 35184372088832

/-- The kernels of linear algebra for scalars with double precision parts. The entries of a basis
are put on a grid by `settle`, so that entries of equal modulus are not told apart by rounding
errors. -/
def floatingKernels {K : Type} [Zero K] [One K] [Add K] [Sub K] [Mul K] [Div K] [BEq K]
    [Scalar Float K] (settle : K → K) : LinearKernels K where
  solve := eliminate
  leastSquares A b := do
    let f := A.normalizer
    let x ← leastSquaresBySingularValues machineEpsilon (A.scaled f) b
    return x.map (· * Scalar.ofReal f)
  rank A := rankBySingularValues machineEpsilon (A.scaled A.normalizer)
  nullBasis A := do
    let N ← nullBasisBySingularValues machineEpsilon (A.scaled A.normalizer)
    return N.map settle

/-- The kernels for real matrices. -/
def realKernels : LinearKernels Float := floatingKernels onGrid

/-- The kernels for complex matrices. -/
def complexKernels : LinearKernels ComplexFloat :=
  floatingKernels fun z => ⟨onGrid z.re, onGrid z.im⟩

/-- The roots of a real polynomial. -/
def realRoots : RootFinder Float ComplexFloat := Companion.roots ComplexFloat.ofReal

/-- The roots of a complex polynomial. -/
def complexRoots : RootFinder ComplexFloat ComplexFloat := Companion.roots fun z => z

/-- Linear programs over doubles. -/
def floatingPrograms : ProgramSolver Float := Simplex.solve

end PolynomialEquations
