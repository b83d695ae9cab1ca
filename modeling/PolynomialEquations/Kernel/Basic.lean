import PolynomialEquations.Matrix.Basic
import PolynomialEquations.Journal.Basic

/-!
# Numerical kernels

The solvers take their numerical kernels as arguments: linear systems, least squares, rank and
kernel of a matrix, roots of a polynomial, and linear programs. What a kernel must do is said
where a theorem assumes it; the other modules of this folder hold kernels for doubles.
-/

namespace PolynomialEquations

/-- The kernels of linear algebra over the scalars `K`. -/
structure LinearKernels (K : Type) where
  /-- The solution of a square system, or what keeps elimination from finding it. -/
  solve : Mat K → Array K → Except SolveObstacle (Array K)
  /-- The least squares solution of smallest norm. -/
  leastSquares : Mat K → Array K → Except Failure (Array K)
  /-- The rank of a matrix. -/
  rank : Mat K → Except Failure Nat
  /-- A matrix whose columns are an orthonormal basis of the kernel of a matrix with at least one
  row and one column. -/
  nullBasis : Mat K → Except Failure (Mat K)

/-- A root finder: all complex roots of the polynomial with the given coefficients, constant term
first, by multiplicity. The last coefficient is not zero and there are at least two. -/
abbrev RootFinder (K C : Type) := Array K → Except Failure (List C)

/-- The problem of making `cost · x` least subject to `matrix x = rhs`, where the variables from
`free` on must not be negative. -/
structure LinearProgram (R : Type) where
  /-- The cost of a unit of each variable. -/
  cost : Array R
  /-- The constraint matrix. -/
  matrix : Mat R
  /-- The right side of the constraints. -/
  rhs : Array R
  /-- The number of variables, from the first on, that may be negative. -/
  free : Nat

/-- An optimal point of a linear program and its cost. -/
structure Optimum (R : Type) where
  /-- The values of the variables. -/
  point : Array R
  /-- The cost of the point. -/
  value : R

/-- A solver of linear programs. -/
abbrev ProgramSolver (R : Type) := LinearProgram R → Except Failure (Optimum R)

section Guards

variable {K : Type}

/-- The rank, which is zero for a matrix without entries. -/
def LinearKernels.rankOf (kernels : LinearKernels K) (A : Mat K) : Except Failure Nat :=
  if A.rows * A.cols = 0 then .ok 0 else kernels.rank A

/-- An orthonormal basis of the kernel as columns. A matrix without columns has the basis without
columns, and one without rows the unit vectors. -/
def LinearKernels.nullspace [Zero K] [One K] (kernels : LinearKernels K) (A : Mat K) :
    Except Failure (Mat K) :=
  if A.cols = 0 then .ok (Mat.zeros 0 0)
  else if A.rows = 0 then .ok (Mat.identity A.cols)
  else kernels.nullBasis A

end Guards

end PolynomialEquations
