import PolynomialEquations.Value.Basic
import PolynomialEquations.Text.Numeral

/-!
# Reading values

Which number, which sequence of coefficients and which array of numbers a value stands for. Lists
within lists are arrays when all of them have one shape. Coefficients must be numbers throughout;
arrays are more generous and also read numerals in texts, with missing entries as numbers that are
undefined.
-/

namespace PolynomialEquations

/-- The double nearest to an integer, which must not exceed the largest double. -/
def doubleOfInteger (n : Int) : Except Failure Float :=
  let x := Float.ofInt n
  if x - x == 0 then .ok x else .error .tooLarge

/-- The integer nearest to `x` on the side of zero. -/
def truncated (x : Float) : Except Failure Int :=
  if x != x then .error .unusable
  else if x - x != 0 then .error .tooLarge
  else
    let m := Magnitude.ofFloat x
    let n : Int := (m.num / m.den : Nat)
    .ok (if hasSign x then -n else n)

/-- A value inside an array, without structure of its own. -/
inductive Entry where
  /-- No value. -/
  | missing
  /-- A truth value. -/
  | truth (b : Bool)
  /-- An integer. -/
  | integer (n : Int)
  /-- A real number. -/
  | real (x : Float)
  /-- A complex number. -/
  | complex (z : ComplexFloat)
  /-- A text. -/
  | text (s : String)
  /-- Something that is no part of any array of numbers. -/
  | foreign

namespace Entry

/-- Whether an array with such an entry is one of arbitrary objects: the entry is missing, foreign,
or an integer of more than 64 bits. -/
def isObject : Entry → Bool
  | missing | foreign => true
  | integer n => n < -9223372036854775808 || 18446744073709551616 ≤ n
  | _ => false

/-- Whether the entry is a text. -/
def isText : Entry → Bool
  | text _ => true
  | _ => false

/-- Whether the entry is a truth value. -/
def isTruth : Entry → Bool
  | truth _ => true
  | _ => false

/-- Whether the entry is a complex number. -/
def isComplex : Entry → Bool
  | complex _ => true
  | _ => false

/-- Whether the entry is not a truth value or a real number. -/
def isUncountable : Entry → Bool
  | missing | foreign | text _ | complex _ => true
  | _ => false

/-- The least width of an array of texts with such an entry in it. -/
def textWidth : Entry → Nat
  | text s => s.length
  | truth _ => 5
  | integer _ => 21
  | real _ => 32
  | complex _ => 64
  | missing | foreign => 0

/-- The real number that an entry of an array stands for. -/
def toReal : Entry → Except Failure Float
  | missing => .ok (0.0 / 0.0)
  | truth b => .ok (if b then 1 else 0)
  | integer n => doubleOfInteger n
  | real x => .ok x
  | text s => match decimalNumeral? s with
    | some x => .ok x
    | none => .error .unusable
  | complex _ | foreign => .error .wrongKind

/-- The complex number that an entry of an array stands for. -/
def toComplex : Entry → Except Failure ComplexFloat
  | missing => .ok ⟨0.0 / 0.0, 0.0 / 0.0⟩
  | complex z => .ok z
  | e => e.toReal.map ComplexFloat.ofReal

end Entry

/-- The entries as numbers, complex if one of them is. -/
def numbersOf (entries : List Entry) (isComplex : Bool) : Except Failure Numbers :=
  if isComplex then do
    let zs ← entries.mapM Entry.toComplex
    return .complex zs.toArray
  else do
    let xs ← entries.mapM Entry.toReal
    return .real xs.toArray

/-- The name of the kind of an array with the given entries, if it is not one of numbers. -/
def foreignKind? (entries : List Entry) : Option String :=
  if entries.any Entry.isObject then some "object"
  else if entries.any Entry.isText then
    some s!"<U{entries.foldl (fun k e => max k e.textWidth) 1}"
  else if entries.all Entry.isTruth then some "bool"
  else none

/-- The common shape of the parts of a list, one shape for each part. -/
def commonShape? : List (List Nat) → Option (List Nat)
  | [] => some []
  | [s] => some s
  | s :: rest => if commonShape? rest = some s then some s else none

namespace Value

/-- The entries of numbers in an array. -/
def entriesOf : Numbers → List Entry
  | .real xs => xs.toList.map Entry.real
  | .complex zs => zs.toList.map Entry.complex

mutual

/-- The shape of the array that a value stands for, if it is not ragged. A single value has no
axes. -/
def shape? : Value → Option (List Nat)
  | list xs | tuple xs => do
    let inner ← shapes? xs
    let s ← commonShape? inner
    return inner.length :: s
  | array t => some t.shape
  | _ => some []

/-- The shapes of several values. -/
def shapes? : List Value → Option (List (List Nat))
  | [] => some []
  | x :: xs => do
    let s ← shape? x
    let rest ← shapes? xs
    return s :: rest

end

mutual

/-- The entries of the array that a value stands for. -/
def entries : Value → List Entry
  | none => [.missing]
  | truth b => [.truth b]
  | integer n => [.integer n]
  | real x => [.real x]
  | complex z => [.complex z]
  | text s => [.text s]
  | list xs | tuple xs => allEntries xs
  | array t => entriesOf t.data
  | poly _ => [.foreign]

/-- The entries of several values, one after the other. -/
def allEntries : List Value → List Entry
  | [] => []
  | x :: xs => entries x ++ allEntries xs

end

/-- The sequence of coefficients that a value stands for; a single number is a sequence of one. The
shape is looked at before the kind of the entries. -/
def coefficients (v : Value) : Except Failure Numbers :=
  match v.shape? with
  | Option.none => .error .unusable
  | some (_ :: _ :: _) => .error .notASequence
  | some _ =>
    let es := v.entries
    if es.isEmpty then .error .noCoefficients
    else
      match foreignKind? es with
      | some kind => .error (.notNumeric kind)
      | Option.none => numbersOf es (es.any Entry.isComplex)

/-- The numbers that entries stand for, complex if one of them is. An array of texts holds no texts
of truth values or complex numbers that could be read. -/
def readEntries (es : List Entry) : Except Failure Numbers :=
  if es.any Entry.isObject then numbersOf es false
  else if es.any Entry.isText then
    if es.any fun e => e.isTruth || e.isComplex then .error .unusable else numbersOf es false
  else numbersOf es (es.any Entry.isComplex)

/-- The array of numbers that a value stands for. -/
def toTensor (v : Value) : Except Failure Tensor :=
  match v with
  | array t => .ok t
  | v =>
    match v.shape? with
    | Option.none => .error .unusable
    | some shape => do
      let numbers ← readEntries v.entries
      return ⟨shape, numbers⟩

/-- The array of the given shape with the given entries, row by row. -/
def arrayOfEntries (shape : List Nat) (data : List Value) (isComplex : Bool) :
    Except Failure Tensor := do
  let es := allEntries data
  let numbers ← numbersOf es (isComplex || es.any Entry.isComplex)
  if numbers.size ≠ shape.foldl (· * ·) 1 then throw .unusable
  else return ⟨shape, numbers⟩

/-- The number that a value is, if it is one. -/
def toNumbers? : Value → Option (Except Failure Numbers)
  | truth b => some (.ok (.real #[if b then 1 else 0]))
  | integer n => some ((doubleOfInteger n).map fun x => .real #[x])
  | real x => some (.ok (.real #[x]))
  | complex z => some (.ok (.complex #[z]))
  | array ⟨[], z⟩ => some (.ok z)
  | _ => Option.none

/-- The real number that a value is. -/
def toReal (v : Value) : Except Failure Float :=
  match v.toNumbers? with
  | some (.ok (.real xs)) => .ok (xs.getD 0 0)
  | some (.error e) => .error e
  | _ => .error .wrongKind

/-- The integer that a value stands for: real numbers lose their decimal places, and texts are read
as numerals. -/
def toInteger : Value → Except Failure Int
  | truth b => .ok (if b then 1 else 0)
  | integer n => .ok n
  | real x => truncated x
  | array ⟨[], .real xs⟩ => truncated (xs.getD 0 0)
  | text s => match integerNumeral? s with
    | some n => .ok n
    | Option.none => .error .unusable
  | _ => .error .wrongKind

/-- The polynomial that a value is. -/
def toPolynomial : Value → Except Failure FloatPoly
  | poly p => .ok p
  | _ => .error .lacking

end Value

/-- The polynomial of kind `v` with the given coefficients from exponent `first` on. -/
def Numbers.toPolynomial (v : Variant) (first : Int) (symbol : String) : Numbers → FloatPoly
  | real xs => .real (Poly.assemble v first xs symbol)
  | complex zs => .complex (Poly.assemble v first zs symbol)

/-- The ordinary polynomial with the coefficients that a value stands for. -/
def ordinaryPolynomial (coef : Value) (symbol : String) : Except Failure FloatPoly := do
  let c ← coef.coefficients
  return c.toPolynomial .ordinary 0 symbol

/-- The Laurent polynomial with the coefficients that a value stands for, from the exponent that
another one stands for on. -/
def laurentPolynomial (coef first : Value) (symbol : String) : Except Failure FloatPoly := do
  let c ← coef.coefficients
  let k ← first.toInteger
  return c.toPolynomial .laurent k symbol

end PolynomialEquations
