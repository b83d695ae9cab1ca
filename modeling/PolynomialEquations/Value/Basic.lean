import PolynomialEquations.Mixed.Arithmetic
import PolynomialEquations.Scalar.Floating
import PolynomialEquations.Matrix.Basic

/-!
# Values

What an operation may be handed: numbers, texts, lists, arrays of numbers and polynomials. Most
operations accept only some of these and refuse the others by kind.
-/

namespace PolynomialEquations

/-- A polynomial over the doubles or the complex doubles. -/
abbrev FloatPoly := MixedPoly Float ComplexFloat

/-- Numbers of one kind. -/
inductive Numbers where
  /-- Real numbers. -/
  | real (xs : Array Float)
  /-- Complex numbers. -/
  | complex (zs : Array ComplexFloat)

namespace Numbers

/-- The number of entries. -/
def size : Numbers → Nat
  | real xs => xs.size
  | complex zs => zs.size

/-- The numbers as complex numbers. -/
def toComplex : Numbers → Array ComplexFloat
  | real xs => xs.map ComplexFloat.ofReal
  | complex zs => zs

/-- Whether the numbers are complex. -/
def isComplex : Numbers → Bool
  | real _ => false
  | complex _ => true

/-- The numbers one by one. -/
def toScalars : Numbers → Array (MixedScalar Float ComplexFloat)
  | real xs => xs.map .real
  | complex zs => zs.map .complex

/-- The first number, zero if there is none. -/
def scalar : Numbers → MixedScalar Float ComplexFloat
  | real xs => .real (xs.getD 0 0)
  | complex zs => .complex (zs.getD 0 0)

end Numbers

/-- Numbers arranged in rows of rows, to any depth. -/
structure Tensor where
  /-- The number of entries along each axis. -/
  shape : List Nat
  /-- The entries, the last axis running fastest. -/
  data : Numbers

/-- A matrix over the doubles or the complex doubles. -/
inductive MixedMat where
  /-- A matrix over the real numbers. -/
  | real (A : Mat Float)
  /-- A matrix over the complex numbers. -/
  | complex (A : Mat ComplexFloat)

namespace MixedMat

/-- The matrix over the complex numbers. -/
def toComplex : MixedMat → Mat ComplexFloat
  | real A => A.map ComplexFloat.ofReal
  | complex A => A

/-- The matrix as an array of numbers. -/
def toTensor : MixedMat → Tensor
  | real A => ⟨[A.rows, A.cols], .real A.entries⟩
  | complex A => ⟨[A.rows, A.cols], .complex A.entries⟩

end MixedMat

namespace Tensor

/-- A vector. -/
def ofVector (v : Numbers) : Tensor := ⟨[v.size], v⟩

/-- A vector of real numbers. -/
def ofReals (v : Array Float) : Tensor := ofVector (.real v)

/-- A single number. -/
def ofNumber (z : Numbers) : Tensor := ⟨[], z⟩

/-- The array as a matrix, if it has two axes. -/
def toMatrix? (t : Tensor) : Option MixedMat :=
  match t.shape, t.data with
  | [m, n], .real xs => some (.real ⟨m, n, xs⟩)
  | [m, n], .complex zs => some (.complex ⟨m, n, zs⟩)
  | _, _ => none

/-- The array as a vector, if it has one axis. -/
def toVector? (t : Tensor) : Option Numbers :=
  match t.shape with
  | [_] => some t.data
  | _ => none

end Tensor

/-- A value. -/
inductive Value where
  /-- No value. -/
  | none
  /-- A truth value. -/
  | truth (b : Bool)
  /-- An integer. -/
  | integer (n : Int)
  /-- A real number. -/
  | real (x : Float)
  /-- A complex number. -/
  | complex (z : ComplexFloat)
  /-- A text. -/
  | text (s : String)
  /-- A list of values. -/
  | list (xs : List Value)
  /-- A fixed number of values together, such as the unknowns of an equation. -/
  | tuple (xs : List Value)
  /-- An array of numbers; a single number taken out of one has no axes. -/
  | array (t : Tensor)
  /-- A polynomial. -/
  | poly (p : FloatPoly)

instance : Inhabited Value := ⟨.none⟩

namespace Value

/-- The name of the kind of a value, as messages use it. -/
def kindName : Value → String
  | none => "NoneType"
  | truth _ => "bool"
  | integer _ => "int"
  | real _ => "float"
  | complex _ => "complex"
  | text _ => "str"
  | list _ => "list"
  | tuple _ => "tuple"
  | array ⟨[], .real _⟩ => "float64"
  | array ⟨[], .complex _⟩ => "complex128"
  | array _ => "ndarray"
  | poly p => match p.variant with
    | .ordinary => "Polynomial"
    | .laurent => "LaurentPolynomial"

/-- A matrix as a value. -/
def ofMatrix (A : MixedMat) : Value := array A.toTensor

/-- A real number computed from an array. -/
def ofEntry (x : Float) : Value := array (Tensor.ofNumber (.real #[x]))

end Value

end PolynomialEquations
