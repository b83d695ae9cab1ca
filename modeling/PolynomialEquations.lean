import PolynomialEquations.Scalar.Floating
import PolynomialEquations.Poly.Evaluation
import PolynomialEquations.Poly.Display
import PolynomialEquations.Kernel.Floating
import PolynomialEquations.Equation.Division
import PolynomialEquations.Equation.Homogeneous
import PolynomialEquations.Equation.Symmetric
import PolynomialEquations.Equation.LeastSum
import PolynomialEquations.Equation.Spectral
import PolynomialEquations.Analysis.Coprime
import PolynomialEquations.Analysis.Stability
import PolynomialEquations.Mixed.Stability
import PolynomialEquations.Analysis.Symmetry
import PolynomialEquations.Text.Quoted
import PolynomialEquations.Text.Numeral
import PolynomialEquations.Value.Basic
import PolynomialEquations.Value.Text
import PolynomialEquations.Value.Reading
import PolynomialEquations.Calculation.Arithmetic
import PolynomialEquations.Calculation.Transform
import PolynomialEquations.Calculation.Matrices
import PolynomialEquations.Calculation.Equations
import PolynomialEquations.Calculation.Predicates
import PolynomialEquations.Journal.Text
import PolynomialEquations.Proofs.Poly.Trimming
import PolynomialEquations.Proofs.Scalar.Exact
import PolynomialEquations.Proofs.Poly.NormalForm
import PolynomialEquations.Proofs.Poly.Coefficients
import PolynomialEquations.Proofs.Poly.Meaning
import PolynomialEquations.Proofs.Matrix.Entries
import PolynomialEquations.Proofs.Matrix.Sylvester
import PolynomialEquations.Proofs.Kernel.Exact
import PolynomialEquations.Proofs.Kernel.Existence
import PolynomialEquations.Proofs.Equation.Bezout
import PolynomialEquations.Proofs.Equation.SquareSystem
import PolynomialEquations.Proofs.Equation.Diophantine
import PolynomialEquations.Proofs.Matrix.SylvesterKernel
import PolynomialEquations.Proofs.Kernel.Direction
import PolynomialEquations.Proofs.Kernel.ColumnOrder
import PolynomialEquations.Proofs.Equation.Homogeneous
import PolynomialEquations.Proofs.Matrix.Reflector
import PolynomialEquations.Proofs.Matrix.Factorization
import PolynomialEquations.Proofs.Matrix.BackSubstitution
import PolynomialEquations.Proofs.Matrix.Toeplitz
import PolynomialEquations.Proofs.Poly.Norm
import PolynomialEquations.Proofs.Matrix.LeastSquares
import PolynomialEquations.Proofs.Equation.Division
import PolynomialEquations.Proofs.Analysis.Coprime
import PolynomialEquations.Proofs.Kernel.LeastSquares
import PolynomialEquations.Proofs.Poly.Conjugation
import PolynomialEquations.Proofs.Equation.Symmetric
import PolynomialEquations.Proofs.Poly.Roots
import PolynomialEquations.Proofs.Kernel.Roots
import PolynomialEquations.Proofs.Poly.AxisRoots
import PolynomialEquations.Proofs.Analysis.Symmetry
import PolynomialEquations.Proofs.Equation.Spectral
import PolynomialEquations.Proofs.Mixed.Basic
import PolynomialEquations.Proofs.Mixed.Arithmetic
import PolynomialEquations.Proofs.Poly.CircleConjugation
import PolynomialEquations.Proofs.Mixed.Equality
import PolynomialEquations.Proofs.Poly.CircleRoots
import PolynomialEquations.Proofs.Poly.Laurent
import PolynomialEquations.Proofs.Equation.CircleSpectral
import PolynomialEquations.Proofs.Equation.LeastResidual
import PolynomialEquations.Proofs.Equation.LeastSum
import PolynomialEquations.Proofs.Mixed.Conjugation
import PolynomialEquations.Proofs.Equation.BasisChoice
import PolynomialEquations.Proofs.Equation.Correspondence
import PolynomialEquations.Proofs.Poly.Evaluation
import PolynomialEquations.Proofs.Mixed.Transform
import PolynomialEquations.Proofs.Mixed.Evaluation
import PolynomialEquations.Proofs.Matrix.FactorizationError
import PolynomialEquations.Proofs.Mixed.Expression
import PolynomialEquations.Proofs.Matrix.Resultant
import PolynomialEquations.Proofs.Poly.Approximation
import PolynomialEquations.Proofs.Mixed.Symmetry
import PolynomialEquations.Proofs.Equation.LeastSumRuns
import PolynomialEquations.Proofs.Analysis.LaurentCoprime
import PolynomialEquations.Proofs.Matrix.SingularTriangular
import PolynomialEquations.Proofs.Mixed.Stability
import PolynomialEquations.Proofs.Mixed.Reciprocal
import PolynomialEquations.Proofs.Mixed.Interaction
import PolynomialEquations.Proofs.Matrix.Multiplication
import PolynomialEquations.Proofs.Matrix.RegularTriangular
import PolynomialEquations.Proofs.Poly.Reversal
import PolynomialEquations.Proofs.Matrix.ToeplitzPivots
import PolynomialEquations.Proofs.Mixed.Approximation
