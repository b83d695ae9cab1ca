import PolynomialEquations.Failure

/-!
# Polynomials

A polynomial holds the coefficients of a window of exponents, lowest first. Ordinary polynomials
start their window at exponent zero; Laurent polynomials may start anywhere. The constructors that
build values trim zero padding, so that the window is the smallest one that holds all non-zero
coefficients: an ordinary polynomial loses trailing zeros, a Laurent polynomial zeros on both
sides, and the zero polynomial keeps one coefficient at exponent zero.
-/

namespace PolynomialEquations

/-- The two kinds of polynomial. -/
inductive Variant where
  /-- No negative exponents; the window starts at zero. -/
  | ordinary
  /-- Any window of integer exponents. -/
  | laurent
  deriving Repr, DecidableEq

/-- The kind of a result of two polynomials: ordinary when both are. -/
def Variant.join : Variant → Variant → Variant
  | .ordinary, .ordinary => .ordinary
  | _, _ => .laurent

/-- A polynomial in one variable; `symbol` names the variable. -/
inductive Poly (K : Type) where
  /-- The polynomial with coefficient `coef[i]` at exponent `i`. -/
  | ordinary (coef : Array K) (symbol : String)
  /-- The polynomial with coefficient `coef[i]` at exponent `first + i`. -/
  | laurent (first : Int) (coef : Array K) (symbol : String)
  deriving Repr

/-- The number of entries of `v` among the first `n` up to the last non-zero one. -/
def significant {K : Type} [Zero K] [BEq K] (v : Array K) : Nat → Nat
  | 0 => 0
  | n + 1 => if v.getD n 0 == 0 then significant v n else n + 1

/-- The number of zeros at the start of `v` when at most `n` entries are looked at from
position `i` on. -/
def leadingZeros {K : Type} [Zero K] [BEq K] (v : Array K) (i : Nat) : Nat → Nat
  | 0 => 0
  | n + 1 => if v.getD i 0 == 0 then leadingZeros v (i + 1) n + 1 else 0

namespace Poly

variable {K : Type}

/-- The kind of a polynomial. -/
def variant : Poly K → Variant
  | ordinary .. => .ordinary
  | laurent .. => .laurent

/-- The stored coefficients, lowest exponent first. -/
def coef : Poly K → Array K
  | ordinary c _ => c
  | laurent _ c _ => c

/-- The exponent of the first stored coefficient. -/
def first : Poly K → Int
  | ordinary .. => 0
  | laurent f _ _ => f

/-- The name of the variable. -/
def symbol : Poly K → String
  | ordinary _ s => s
  | laurent _ _ s => s

/-- The exponent of the last stored coefficient. -/
def last (a : Poly K) : Int := a.first + a.coef.size - 1

/-- The same polynomial with its variable renamed. -/
def withSymbol (s : String) : Poly K → Poly K
  | ordinary c _ => ordinary c s
  | laurent f c _ => laurent f c s

section Structure

variable [Zero K] [BEq K]

/-- Whether every coefficient is zero. -/
def isZero (a : Poly K) : Bool := a.coef.all (· == 0)

/-- The highest exponent with a non-zero coefficient, and `-1` for the zero polynomial. -/
def degree (a : Poly K) : Int := if a.isZero then -1 else a.last

/-- The coefficient at exponent `k`, zero outside the window. -/
def coeff (a : Poly K) (k : Int) : K :=
  if a.first ≤ k then a.coef.getD (k - a.first).toNat 0 else 0

/-- The ordinary polynomial with the given coefficients, constant term first. -/
def ofCoef (c : Array K) (symbol : String) : Poly K :=
  let n := significant c c.size
  if n = 0 then ordinary #[0] symbol else ordinary (c.extract 0 n) symbol

/-- The Laurent polynomial whose coefficients start at exponent `first`. -/
def ofWindow (first : Int) (c : Array K) (symbol : String) : Poly K :=
  let n := significant c c.size
  if n = 0 then laurent 0 #[0] symbol
  else
    let z := leadingZeros c 0 c.size
    laurent (first + z) (c.extract z n) symbol

/-- The polynomial of kind `v` whose coefficients start at exponent `first`. An ordinary one is
filled up with zeros below `first`. -/
def assemble (v : Variant) (first : Int) (c : Array K) (symbol : String) : Poly K :=
  match v with
  | .ordinary => ofCoef (Array.replicate first.toNat 0 ++ c) symbol
  | .laurent => ofWindow first c symbol

/-- As `assemble`, refusing an ordinary polynomial with a negative first exponent. -/
def assemble? (v : Variant) (first : Int) (c : Array K) (symbol : String) :
    Except Failure (Poly K) :=
  if v = .ordinary ∧ first < 0 then .error .negativePowers else .ok (assemble v first c symbol)

/-- The same values as a Laurent polynomial. -/
def toLaurent : Poly K → Poly K
  | ordinary c s => ofWindow 0 c s
  | laurent f c s => laurent f c s

/-- The constant polynomial `t`. -/
def constant (t : K) (symbol : String) : Poly K := ofCoef #[t] symbol

/-- A polynomial in trimmed form: a non-zero last coefficient, and for a Laurent polynomial a
non-zero first one, or the single coefficient zero at exponent zero. -/
def Trimmed : Poly K → Prop
  | ordinary c _ => c = #[0] ∨ (0 < c.size ∧ (c.getD (c.size - 1) 0 == 0) = false)
  | laurent f c _ =>
    (f = 0 ∧ c = #[0]) ∨
      (0 < c.size ∧ (c.getD 0 0 == 0) = false ∧ (c.getD (c.size - 1) 0 == 0) = false)

end Structure

@[simp] theorem first_ordinary (c : Array K) (s : String) : (ordinary c s).first = 0 := rfl

@[simp] theorem coef_ordinary (c : Array K) (s : String) : (ordinary c s).coef = c := rfl

@[simp] theorem first_laurent (f : Int) (c : Array K) (s : String) :
    (laurent f c s).first = f := rfl

@[simp] theorem coef_laurent (f : Int) (c : Array K) (s : String) :
    (laurent f c s).coef = c := rfl

@[simp] theorem symbol_ordinary (c : Array K) (s : String) : (ordinary c s).symbol = s := rfl

@[simp] theorem symbol_laurent (f : Int) (c : Array K) (s : String) :
    (laurent f c s).symbol = s := rfl

/-- An ordinary polynomial starts at exponent zero. -/
theorem first_eq_zero_of_ordinary {a : Poly K} (h : a.variant = .ordinary) : a.first = 0 := by
  cases a with
  | ordinary c s => rfl
  | laurent f c s => simp [variant] at h

end Poly

end PolynomialEquations
