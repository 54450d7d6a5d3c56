import Mathlib.Data.List.Basic
import Ympi.Foundation.Results

/-! # Refinement of deterministic objects

An object answers each operation from its current state or fails. Running a list
of operations collects the answers. When the states of one object map to those of
another so that each single operation agrees, every run agrees: it fails with the
same error or gives the same answers.
-/

namespace Ympi.Foundation

universe u v w x y

variable {State : Type u} {Abstract : Type v} {Operation : Type w} {Answer : Type x}
  {Failure : Type y}

/-- Perform the operations in order and collect their answers. -/
def performAll (perform : State → Operation → Except Failure (State × Answer)) :
    State → List Operation → Except Failure (State × List Answer)
  | state, [] => .ok (state, [])
  | state, operation :: rest => do
      let (next, answer) ← perform state operation
      let (final, answers) ← performAll perform next rest
      return (final, answer :: answers)

variable {perform : State → Operation → Except Failure (State × Answer)}
  {specify : Abstract → Operation → Except Failure (Abstract × Answer)}
  {abstraction : State → Abstract} {invariant : State → Prop}

/-- One operation of an object agrees with its specification: both fail alike, or
both give the same answer and corresponding states, and the invariant is kept. -/
def Agrees (perform : State → Operation → Except Failure (State × Answer))
    (specify : Abstract → Operation → Except Failure (Abstract × Answer))
    (abstraction : State → Abstract) (invariant : State → Prop)
    (state : State) (operation : Operation) : Prop :=
  (∃ failure, perform state operation = .error failure ∧
    specify (abstraction state) operation = .error failure) ∨
  ∃ next answer, perform state operation = .ok (next, answer) ∧ invariant next ∧
    specify (abstraction state) operation = .ok (abstraction next, answer)

theorem performAll_invariant
    (agrees : ∀ state operation, invariant state →
      Agrees perform specify abstraction invariant state operation)
    {state final : State} {operations : List Operation} {answers : List Answer}
    (holds : invariant state)
    (performed : performAll perform state operations = .ok (final, answers)) :
    invariant final := by
  induction operations generalizing state answers with
  | nil =>
      cases performed
      exact holds
  | cons operation rest ih =>
      rw [performAll] at performed
      obtain ⟨⟨next, answer⟩, own, performed⟩ := exists_of_bind_ok performed
      obtain ⟨⟨last, rest'⟩, tail, ended⟩ := exists_of_bind_ok performed
      cases ended
      rcases agrees state operation holds with ⟨failure, failed, _⟩ | ⟨next', answer', ok, kept, _⟩
      · cases failed.symm.trans own
      · cases own.symm.trans ok
        exact ih kept tail

/-- **Refinement of runs.** -/
theorem performAll_refines
    (agrees : ∀ state operation, invariant state →
      Agrees perform specify abstraction invariant state operation)
    {state : State} (holds : invariant state) (operations : List Operation) :
    (performAll perform state operations).map (fun result => (abstraction result.1, result.2)) =
      performAll specify (abstraction state) operations := by
  induction operations generalizing state with
  | nil => rfl
  | cons operation rest ih =>
      rcases agrees state operation holds with
        ⟨failure, failed, specified⟩ | ⟨next, answer, ok, kept, specified⟩
      · rw [performAll, performAll, failed, specified]
        rfl
      · have tail := ih kept
        rw [performAll, performAll, ok, specified]
        simp only [bind, Except.bind]
        rw [← tail]
        cases performAll perform next rest with
        | error failure => rfl
        | ok result => rfl

end Ympi.Foundation
