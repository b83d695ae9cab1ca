import PolynomialEquations.Mixed.Transform
import PolynomialEquations.Mixed.Evaluation
import PolynomialEquations.Value.Reading
import PolynomialEquations.Kernel.Floating

/-!
# Values from one polynomial

Coefficients, values, roots and transforms of a polynomial, for operands of any kind.
-/

namespace PolynomialEquations

namespace FloatPoly

/-- The stored coefficients. -/
def coef (a : FloatPoly) : Numbers := a.ask (fun p => .real p.coef) (fun p => .complex p.coef)

/-- The coefficient at an exponent. -/
def coefficient (a : FloatPoly) (k : Int) : Numbers :=
  a.ask (fun p => .real #[p.coeff k]) (fun p => .complex #[p.coeff k])

/-- The values at several numbers, complex as soon as the polynomial or the numbers are. -/
def evalAll (a : FloatPoly) (x : Numbers) : Numbers :=
  let values := x.toScalars.map a.eval
  if a.isComplex || x.isComplex then .complex (values.map (·.toComplex))
  else .real (values.map (·.re))

/-- The roots. -/
def roots (a : FloatPoly) : Except Failure (List ComplexFloat) :=
  a.ask (Poly.roots realRoots) (Poly.roots complexRoots)

end FloatPoly

namespace Value

/-- A polynomial where one is expected, with a message that names what came instead. -/
def expectPolynomial : Value → Except Failure FloatPoly
  | poly p => .ok p
  | v => .error (.notAPolynomial v.kindName)

/-- The array of the stored coefficients. -/
def coefficientArray (a : Value) : Except Failure Value := do
  let p ← a.toPolynomial
  return array (Tensor.ofVector p.coef)

/-- The coefficient at an exponent, which must be an integer or a truth value. -/
def coefficientAt (a k : Value) : Except Failure Value :=
  match a, k with
  | poly p, integer n => .ok (array (Tensor.ofNumber (p.coefficient n)))
  | poly p, truth b => .ok (array (Tensor.ofNumber (p.coefficient (if b then 1 else 0))))
  | poly _, _ => .error .indexNotInteger
  | _, _ => .error .wrongKind

/-- The value with complex conjugated coefficients or entries. -/
def conj : Value → Except Failure Value
  | poly p => .ok (poly p.conj)
  | array ⟨shape, .complex zs⟩ => .ok (array ⟨shape, .complex (zs.map Scalar.conj)⟩)
  | array t => .ok (array t)
  | _ => .error .lacking

/-- The polynomial without coefficients of modulus at most a tolerance, which has a default. -/
def chop (a : Value) (tolerance : Option Value) : Except Failure Value := do
  let p ← a.toPolynomial
  let t ← (tolerance.getD (real (negligible Float))).toReal
  return poly (p.chop t)

/-- The values of a polynomial at a number or at all entries of an array. -/
def call (a x : Value) : Except Failure Value := do
  match a with
  | poly p =>
    let t ← x.toTensor
    return array ⟨t.shape, p.evalAll t.data⟩
  | _ => throw .wrongKind

/-- The polynomial as a Laurent polynomial. -/
def asLaurent (a : Value) : Except Failure Value := do
  let p ← a.expectPolynomial
  return poly p.toLaurent

/-- The polynomial with its variable replaced by a multiple of itself. -/
def scale (a factor : Value) : Except Failure Value := do
  let t ← factor.toTensor
  let p ← a.toPolynomial
  match t.shape with
  | [] => return poly (p.scale t.data.scalar)
  | _ => throw .unusable

/-- The conjugate across the imaginary axis. -/
def axisConj (a : Value) : Except Failure Value := do
  let p ← a.toPolynomial
  return poly p.axisConj

/-- The conjugate across the unit circle. -/
def circleConj (a : Value) : Except Failure Value := do
  let p ← a.expectPolynomial
  return poly p.circleConj

/-- The conjugated coefficients in reverse order. -/
def reciprocal (a : Value) : Except Failure Value := do
  let p ← a.toPolynomial
  let q ← p.reciprocal
  return poly q

/-- The product with a power of the variable, the first one if none is given. -/
def shift (a : Value) (k : Option Value) : Except Failure Value := do
  let p ← a.expectPolynomial
  let n ← (k.getD (integer 1)).toInteger
  return poly (p.shift n)

/-- The roots of a polynomial. -/
def roots (a : Value) : Except Failure (List ComplexFloat) := do
  let p ← a.toPolynomial
  p.roots

/-- Why entries are no list of roots, if they are none: they are not in a row, or they have no
common kind of number. -/
def rootsFault? (shape : List Nat) (es : List Entry) : Option Failure :=
  if 1 < shape.length then some .unusable
  else if es.any Entry.isObject then
    if es.any Entry.isUncountable then some .wrongKind else some (.notNumeric "object")
  else if es.any Entry.isText || es.all Entry.isTruth then some .unusable
  else Option.none

/-- The monic polynomial with the roots that a value lists. -/
def polynomialOfRoots (v : Value) (symbol : String) : Except Failure Value := do
  match v.shape? with
  | Option.none => throw .unusable
  | some shape =>
    let es := v.entries
    if es.isEmpty then return poly (.real (Poly.ofCoef #[1] symbol))
    else
      match rootsFault? shape es with
      | some e => throw e
      | Option.none =>
        match ← numbersOf es (es.any Entry.isComplex) with
        | .real xs => return poly (.real (Poly.ofCoef (coefOfRoots xs.toList) symbol))
        | .complex zs => return poly (polyOfRoots zs.toList symbol)

/-- The polynomial of the given kind with the given coefficients from an exponent on. -/
def assembled (v : Variant) (coef : Value) (first : Int) (symbol : String) :
    Except Failure Value := do
  if v = .ordinary ∧ first < 0 then throw .negativePowers
  else
    let c ← coef.coefficients
    return poly (c.toPolynomial v first symbol)

end Value

end PolynomialEquations
