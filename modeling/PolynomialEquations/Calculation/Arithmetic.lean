import PolynomialEquations.Mixed.Arithmetic
import PolynomialEquations.Value.Reading

/-!
# Arithmetic on values

Sums, differences, products, quotients and comparisons in which at least one operand is a
polynomial. A number beside a polynomial counts as the constant polynomial in the same variable,
and a number on the left is moved to the right.
-/

namespace PolynomialEquations

namespace Value

/-- The number that a value is, as an operand beside a polynomial; nothing for other values. -/
def number? (v : Value) : Except Failure (Option (MixedScalar Float ComplexFloat)) :=
  match v.toNumbers? with
  | Option.none => .ok Option.none
  | some _ => do
    let t ← v.coefficients
    return some t.scalar

/-- An operation on a polynomial and a value that must be a number. -/
def withNumber (f : MixedScalar Float ComplexFloat → Except Failure FloatPoly) (v : Value) :
    Except Failure Value := do
  match ← v.number? with
  | some t => return poly (← f t)
  | Option.none => throw .wrongKind

/-- The sum of two values. -/
def add : Value → Value → Except Failure Value
  | poly p, poly q => (p.add? q).map poly
  | poly p, b => b.withNumber p.addNumber?
  | a, poly q => a.withNumber q.addNumber?
  | _, _ => .error .wrongKind

/-- The difference of two values. -/
def sub : Value → Value → Except Failure Value
  | poly p, poly q => (p.sub? q).map poly
  | poly p, b => b.withNumber p.subNumber?
  | a, poly q => a.withNumber fun t => MixedPoly.numberSub? t q
  | _, _ => .error .wrongKind

/-- The product of two values. -/
def mul : Value → Value → Except Failure Value
  | poly p, poly q => (p.mul? q).map poly
  | poly p, b => b.withNumber p.mulNumber?
  | a, poly q => a.withNumber q.mulNumber?
  | _, _ => .error .wrongKind

/-- The quotient of a polynomial by a number. -/
def div : Value → Value → Except Failure Value
  | poly p, b =>
    match b.toNumbers? with
    | some t => do
      let q ← p.divNumber? (← t).scalar
      return poly q
    | Option.none => .error .wrongKind
  | _, _ => .error .wrongKind

/-- The negative of a value. -/
def neg : Value → Except Failure Value
  | poly p => p.neg?.map poly
  | truth b => .ok (integer (if b then -1 else 0))
  | integer n => .ok (integer (-n))
  | real x => .ok (real (-x))
  | complex z => .ok (complex (-z))
  | array ⟨shape, .real xs⟩ => .ok (array ⟨shape, .real (xs.map (-·))⟩)
  | array ⟨shape, .complex zs⟩ => .ok (array ⟨shape, .complex (zs.map (-·))⟩)
  | _ => .error .wrongKind

/-- A value as an operand of a comparison with a polynomial in the given variable: a polynomial as
it is, a number as a constant, and nothing otherwise. -/
def comparand (symbol : String) : Value → Except Failure (Option FloatPoly)
  | poly q => .ok (some q)
  | v => do
    let t ← v.number?
    return t.map (MixedPoly.constant symbol)

/-- Whether a polynomial equals another polynomial or a number; it equals nothing else. -/
def equal : Value → Value → Except Failure Bool
  | poly p, b => do
    let q ← b.comparand p.symbol
    return q.any p.equal
  | a, poly q => do
    let p ← a.comparand q.symbol
    return p.any q.equal
  | _, _ => .ok false

/-- Whether a polynomial equals another polynomial or a number up to a relative and an absolute
tolerance, which have defaults. -/
def isApprox (a b : Value) (rtol atol : Option Value) : Except Failure Bool := do
  let p ← a.toPolynomial
  match ← b.comparand p.symbol with
  | Option.none => throw (.incomparable b.kindName)
  | some q =>
    let r ← (rtol.getD (real 1e-8)).toReal
    let t ← (atol.getD (real 0)).toReal
    return p.isApprox q r t

end Value

end PolynomialEquations
