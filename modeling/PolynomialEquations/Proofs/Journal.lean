import PolynomialEquations.Journal.Basic

/-!
# Outcomes of sequences

The outcome of a computation in several steps is found step by step: a step that succeeds hands its
value to the rest. A journal that holds a warning only under some condition tells whether the
condition holds.
-/

namespace PolynomialEquations

/-- A warning of roots on the boundary that is written unless a condition holds. -/
theorem boundaryRoots_mem_iff {R : Type} {curve : Boundary} {p : Prop} [Decidable p] {k t : Nat} :
    (∃ kept total, (.boundaryRoots curve kept total : Event R) ∈
      if p then [] else [.boundaryRoots curve k t]) ↔ ¬p := by
  by_cases hp : p
  · simp [hp]
  · simp [hp]

namespace Traced

variable {R α β : Type}

/-- After a step that succeeds the outcome is that of the rest. -/
theorem outcome_bind_of_ok {x : Traced R α} {v : α} (h : x.outcome = .ok v) (f : α → Traced R β) :
    (x >>= f).outcome = (f v).outcome := by
  rw [bind_of_ok f h]

/-- After a step without a journal that succeeds the outcome is that of the rest. -/
theorem outcome_ofExcept_bind {x : Except Failure α} {v : α} (h : x = .ok v) (f : α → Traced R β) :
    (ofExcept x >>= f).outcome = (f v).outcome :=
  outcome_bind_of_ok (x := ofExcept x) h f

/-- Writing an event does not change the outcome. -/
theorem outcome_note_bind (e : Event R) (f : Unit → Traced R β) :
    (note e >>= f).outcome = (f ()).outcome :=
  outcome_bind_of_ok (outcome_note e) f

end Traced

end PolynomialEquations
