import PolynomialEquations.Value.Reading
import PolynomialEquations.Value.Text
import PolynomialEquations.Matrix.Structured
import PolynomialEquations.Matrix.Reflection
import PolynomialEquations.Matrix.Triangular
import PolynomialEquations.Equation.Homogeneous
import PolynomialEquations.Kernel.Floating

/-!
# Matrices on values

Structured matrices of polynomials, factorisations, triangular systems, rank and kernel for operands
of any kind. Operands are read as arrays of numbers and must have two axes where a matrix is
needed.
-/

namespace PolynomialEquations

namespace MixedMat

/-- A matrix built from a polynomial with real or complex coefficients. -/
def ofPoly (onReal : Poly Float → Mat Float) (onComplex : Poly ComplexFloat → Mat ComplexFloat)
    (a : FloatPoly) : MixedMat :=
  a.ask (fun p => real (onReal p)) (fun p => complex (onComplex p))

/-- A matrix built from two polynomials over common scalars. -/
def ofPolys? (onReal : Poly Float → Poly Float → Except Failure (Mat Float))
    (onComplex : Poly ComplexFloat → Poly ComplexFloat → Except Failure (Mat ComplexFloat))
    (a b : FloatPoly) : Except Failure MixedMat :=
  a.ask₂ (fun p q => (onReal p q).map real) (fun p q => (onComplex p q).map complex) b

/-- The orthogonal factorisation. -/
def factors (wanted : Factors) : MixedMat → MixedMat × MixedMat
  | real A =>
    let F := householderQR A wanted
    (real F.q, real F.r)
  | complex A =>
    let F := householderQR A wanted
    (complex F.q, complex F.r)

/-- The number of rows. -/
def rows : MixedMat → Nat
  | real A => A.rows
  | complex A => A.rows

/-- The number of columns. -/
def cols : MixedMat → Nat
  | real A => A.cols
  | complex A => A.cols

/-- The product of a matrix with its own adjoint. -/
def gram : MixedMat → MixedMat
  | real A => real (A.mul A.adjoint)
  | complex A => complex (A.mul A.adjoint)

/-- The solution of a triangular system whose right side has the columns given. -/
def backSubstitute : MixedMat → MixedMat → Except Failure MixedMat
  | real U, real C => (PolynomialEquations.backSubstitute U C).map real
  | U, C => (PolynomialEquations.backSubstitute U.toComplex C.toComplex).map complex

end MixedMat

namespace Tensor

/-- The array as a matrix, which it must be. -/
def toMatrix (t : Tensor) : Except Failure MixedMat :=
  match t.toMatrix? with
  | some A => .ok A
  | none => .error .unusable

/-- An array with one or two axes as a matrix; a vector is a single column. -/
def toColumns (t : Tensor) : Except Failure MixedMat :=
  match t.shape, t.data with
  | [n], .real xs => .ok (.real ⟨n, 1, xs⟩)
  | [n], .complex zs => .ok (.complex ⟨n, 1, zs⟩)
  | _, _ => t.toMatrix

/-- The tolerance relative to the row sum norm. An array with one axis has its largest modulus for a
norm, and one without entries counts as one of norm one. -/
def tolerance (t : Tensor) : Except Failure Float :=
  if t.data.size = 0 then .ok (negligible Float)
  else if 2 < t.shape.length then .error .unusable
  else
    match t.toColumns with
    | .ok (.real A) => .ok A.tolerance
    | .ok (.complex A) => .ok A.tolerance
    | .error e => .error e

/-- A matrix with one column as a vector. -/
def ofColumns (A : MixedMat) : Tensor :=
  let t := A.toTensor
  if A.cols = 1 then ⟨[A.rows], t.data⟩ else t

/-- The rank of an array, where one with fewer than two axes has rank one unless it is zero. -/
def rank (t : Tensor) : Except Failure Nat :=
  if t.data.size = 0 then .ok 0
  else
    match t.shape, t.toMatrix? with
    | _, some (.real A) => realKernels.rankOf A
    | _, some (.complex A) => complexKernels.rankOf A
    | [], none | [_], none => .ok (if t.data.toComplex.all (· == 0) then 0 else 1)
    | _, none => .error .wrongKind

end Tensor

namespace Value

/-- The banded Toeplitz matrix of a polynomial with the given number of columns. -/
def toeplitz (a columns : Value) : Except Failure Value := do
  let c ← columns.toInteger
  let n ← columnCount? c
  let p ← a.toPolynomial
  return ofMatrix (MixedMat.ofPoly (PolynomialEquations.toeplitz · n)
    (PolynomialEquations.toeplitz · n) p)

/-- The parts of a value that has parts in a row. -/
def parts? : Value → Option (List Value)
  | list xs | tuple xs => some xs
  | text s => some (s.toList.map fun c => text c.toString)
  | array ⟨[_], .real xs⟩ => some (xs.toList.map real)
  | array ⟨[_], .complex zs⟩ => some (zs.toList.map complex)
  | _ => Option.none

/-- The two block widths that a value stands for. -/
def widths (v : Value) : Except Failure (Int × Int) := do
  match v.parts? with
  | Option.none => throw .wrongKind
  | some xs =>
    let ns ← (xs.take 3).mapM toInteger
    match ns with
    | [w₁, w₂] => return (w₁, w₂)
    | _ => throw .unusable

/-- The block widths of a Sylvester matrix, and how a message shows them. Without widths they
follow from the degree of `x`, which in turn has a default. -/
def sylvesterWidths (p q : FloatPoly) (given degree : Option Value) :
    Except Failure (Int × Int × String) := do
  match given.getD none with
  | none =>
    let dx ← match degree.getD none with
      | none => pure Option.none
      | d => d.toInteger.map some
    let (w₁, w₂) := p.ask₂ (defaultWidths · · dx) (defaultWidths · · dx) q
    return (w₁, w₂, showWidths w₁ w₂)
  | v =>
    let (w₁, w₂) ← v.widths
    return (w₁, w₂, shown (match v with
      | list xs => tuple xs
      | v => v))

/-- The Sylvester matrix of two polynomials for given widths or a given degree of `x`. -/
def sylvester (a b : Value) (given degree : Option Value) : Except Failure Value := do
  let p ← a.toPolynomial
  let q ← b.toPolynomial
  let (w₁, w₂, shown) ← sylvesterWidths p q given degree
  let S ← MixedMat.ofPolys? (sylvester? · · w₁ w₂ shown) (sylvester? · · w₁ w₂ shown) p q
  return ofMatrix S

/-- The square Sylvester matrix of two polynomials. -/
def resultantMatrix (a b : Value) : Except Failure Value := do
  let q ← b.toPolynomial
  let p ← a.toPolynomial
  let S ← MixedMat.ofPolys? PolynomialEquations.resultantMatrix
    PolynomialEquations.resultantMatrix p q
  return ofMatrix S

/-- The diagonal of alternating signs whose size is the least integer not below a number. -/
def alternatingSigns (size : Value) : Except Failure Value := do
  let n ← match size with
    | real x => truncated x.ceil
    | text _ => throw .wrongKind
    | v => v.toInteger
  return ofMatrix (.real (PolynomialEquations.alternatingSigns n.toNat))

/-- The factorisation mode that a value names; without one the factorisation is complete. -/
def toFactors : Option Value → Except Failure Factors
  | Option.none | some (text "complete") => .ok .complete
  | some (text "reduced") => .ok .reduced
  | some v => .error (.unknownMode v.shown)

/-- The orthogonal factors of a matrix. -/
def orthogonalFactors (A : Value) (mode : Option Value) : Except Failure Value := do
  let wanted ← toFactors mode
  let t ← A.toTensor
  let A ← t.toMatrix
  let (Q, R) := A.factors wanted
  return tuple [ofMatrix Q, ofMatrix R]

/-- The solution of a triangular system, where a right side or solution of one column is a
vector. -/
def backSubstitute (U C : Value) : Except Failure Value := do
  let u ← U.toTensor
  let c ← C.toTensor
  let C ← c.toColumns
  let _ ← u.tolerance
  match u.toMatrix? with
  | some U =>
    let X ← U.backSubstitute C
    return array (Tensor.ofColumns X)
  | Option.none =>
    if C.rows = 0 then return array (Tensor.ofColumns C)
    else throw (if u.shape.length = 1 then .outOfBounds else .unusable)

/-- The rank of a matrix. -/
def rank (A : Value) : Except Failure Value := do
  let t ← A.toTensor
  let r ← t.rank
  return integer r

/-- An orthonormal basis of the kernel of a matrix, as columns. -/
def nullspace (A : Value) : Except Failure MixedMat := do
  let t ← A.toTensor
  match ← t.toMatrix with
  | .real A => (realKernels.nullspace A).map .real
  | .complex A => (complexKernels.nullspace A).map .complex

/-- The tolerance that belongs to an array. -/
def tolerance : Value → Except Failure Value
  | array t => t.tolerance.map ofEntry
  | _ => .error .lacking

/-- A vector filled up with zeros to a given length. -/
def padTo (v size : Value) : Except Failure Value := do
  let t ← v.toTensor
  match t.shape with
  | [] => throw .outOfBounds
  | rows :: rest =>
    let n ← match size with
      | real _ | text _ => throw .wrongKind
      | s => s.toInteger
    if n < rows then throw (.doesNotFit rows n)
    else if rest.any (· ≠ 1) || (rest ≠ [] && rows ≠ 1) then throw .unusable
    else
      match t.data with
      | .real xs => return array (Tensor.ofReals (← PolynomialEquations.padTo xs n))
      | .complex zs => return array (Tensor.ofVector (.complex (← PolynomialEquations.padTo zs n)))

/-- The vector chosen from the columns of a matrix, each of which must have an entry. -/
def chosenColumn {K : Type} [Zero K] [One K] [Add K] [Neg K] [Sub K] [Mul K] [Div K] [BEq K]
    [Scalar Float K] (pack : Array K → Numbers) (N : Mat K) : Traced Float Value :=
  if N.rows = 0 && N.cols ≠ 0 then Traced.fail .unusable
  else do
    let v ← PolynomialEquations.kernelVector N
    return array (Tensor.ofVector (pack v))

/-- The vector chosen from the kernel whose basis the columns of a matrix are. -/
def kernelVector (N : Value) : Traced Float Value :=
  match N with
  | array t =>
    match t.toMatrix? with
    | some (.real N) => chosenColumn .real N
    | some (.complex N) => chosenColumn .complex N
    | Option.none => Traced.fail (if t.shape.length < 2 then .outOfBounds else .unusable)
  | _ => Traced.fail .lacking

end Value

end PolynomialEquations
