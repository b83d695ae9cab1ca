import PolynomialEquations.Failure

/-!
# Journals

A solver keeps a journal of what it tried. `Traced R α` is a computation that writes events into
a journal and ends with a value or a failure; events written before a failure are kept.
-/

namespace PolynomialEquations

/-- What kept a square system from being solved by elimination. -/
inductive SolveObstacle where
  /-- Elimination met a pivot that is exactly zero. -/
  | singular
  /-- The matrix is not square. -/
  | notSquare
  deriving Repr, DecidableEq

/-- The curve that separates stable from unstable roots. -/
inductive Boundary where
  /-- The imaginary axis: stable roots lie to its left. -/
  | imaginaryAxis
  /-- The unit circle: stable roots lie inside. -/
  | unitCircle
  deriving Repr, DecidableEq

/-- An event of a solver over the real numbers `R`. -/
inductive Event (R : Type) where
  /-- The dividend has a lower degree than the divisor. -/
  | noQuotient (dividend divisor : Int)
  /-- A division leaves a residual of at least the tolerance. -/
  | inexactDivision (residual tolerance : R)
  /-- One vector of a kernel of the given dimension is chosen. -/
  | kernelChoice (dimension : Nat)
  /-- The kernel of the Sylvester matrix for the given degrees has the given dimension. -/
  | kernelFound (degreeX degreeY : Int) (dimension : Nat)
  /-- A square system could not be solved and is replaced by a least squares problem. -/
  | leastSquares (obstacle : SolveObstacle)
  /-- The solution found does not satisfy its equation. -/
  | unverified
  /-- A linear program for the given degrees has the given optimum. -/
  | optimum (value : R) (degreeX degreeY : Int)
  /-- The last admissible degree was reached while the optimum still improved. -/
  | boundReached (bound : Int)
  /-- Not exactly half of the roots were stable, so some lie on the boundary. -/
  | boundaryRoots (curve : Boundary) (kept total : Nat)

/-- A computation with a journal, over the real numbers `R`. -/
structure Traced (R α : Type) where
  /-- The events in the order in which they happened. -/
  journal : List (Event R)
  /-- The answer, or why there is none. -/
  outcome : Except Failure α

namespace Traced

variable {R α β : Type}

instance : Monad (Traced R) where
  pure x := ⟨[], .ok x⟩
  bind x f :=
    match x.outcome with
    | .error e => ⟨x.journal, .error e⟩
    | .ok v => ⟨x.journal ++ (f v).journal, (f v).outcome⟩

/-- Write one event. -/
def note (e : Event R) : Traced R Unit := ⟨[e], .ok ()⟩

/-- End with a failure. -/
def fail (e : Failure) : Traced R α := ⟨[], .error e⟩

/-- A computation without a journal, as one with an empty journal. -/
def ofExcept (x : Except Failure α) : Traced R α := ⟨[], x⟩

/-- A computation without a journal may stand where one with a journal is expected. -/
instance : MonadLift (Except Failure) (Traced R) := ⟨ofExcept⟩

@[simp] theorem journal_pure (x : α) : (pure x : Traced R α).journal = [] := rfl

@[simp] theorem outcome_pure (x : α) : (pure x : Traced R α).outcome = .ok x := rfl

@[simp] theorem journal_note (e : Event R) : (note e).journal = [e] := rfl

@[simp] theorem outcome_note (e : Event R) : (note e).outcome = .ok () := rfl

@[simp] theorem journal_fail (e : Failure) : (fail e : Traced R α).journal = [] := rfl

@[simp] theorem outcome_fail (e : Failure) : (fail e : Traced R α).outcome = .error e := rfl

@[simp] theorem journal_ofExcept (x : Except Failure α) :
    (ofExcept x : Traced R α).journal = [] := rfl

@[simp] theorem outcome_ofExcept (x : Except Failure α) :
    (ofExcept x : Traced R α).outcome = x := rfl

/-- A computation that succeeds hands its value on and keeps its journal. -/
theorem bind_of_ok {x : Traced R α} {v : α} (f : α → Traced R β) (h : x.outcome = .ok v) :
    x >>= f = ⟨x.journal ++ (f v).journal, (f v).outcome⟩ := by
  change (match x.outcome with
    | .error e => _
    | .ok v => _) = _
  rw [h]

/-- A computation that fails ends there. -/
theorem bind_of_error {x : Traced R α} {e : Failure} (f : α → Traced R β)
    (h : x.outcome = .error e) : x >>= f = ⟨x.journal, .error e⟩ := by
  change (match x.outcome with
    | .error e => _
    | .ok v => _) = _
  rw [h]

/-- The outcome of a sequence is the outcome of its parts in sequence. -/
@[simp] theorem outcome_bind (x : Traced R α) (f : α → Traced R β) :
    (x >>= f).outcome = x.outcome >>= fun v => (f v).outcome := by
  cases h : x.outcome with
  | error e => rw [bind_of_error f h]; rfl
  | ok v => rw [bind_of_ok f h]; rfl

@[simp] theorem bind_pure_left (v : α) (f : α → Traced R β) :
    (pure v : Traced R α) >>= f = f v := by
  rw [bind_of_ok f (outcome_pure v)]
  rfl

end Traced

end PolynomialEquations
