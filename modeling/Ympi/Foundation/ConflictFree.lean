import Mathlib.Data.List.Perm.Basic
import Mathlib.Logic.Relation
import Ympi.Foundation.Execution

/-! # Conflict-free systems

In a conflict-free system a label leads to one state at most, and two labels that are both
possible stay possible after one another, in either order. Whoever takes the next step,
nothing is decided by it: when one execution comes to an end, every execution can go on to
the same end, by the same steps in some order.
-/

namespace Ympi.Foundation

namespace LabelledSystem

universe u v

variable {State : Type u} {Label : Type v} {system : LabelledSystem State Label}

/-- No step disables or alters a step with another label. -/
structure ConflictFree (system : LabelledSystem State Label) : Prop where
  deterministic : ∀ {state after after' : State} {label : Label},
    system.Step state label after → system.Step state label after' → after = after'
  commutes : ∀ {state first second : State} {label label' : Label}, label ≠ label' →
    system.Step state label first → system.Step state label' second →
      ∃ both, system.Step first label' both ∧ system.Step second label both

/-- No step leaves the state. -/
def Final (system : LabelledSystem State Label) (state : State) : Prop :=
  ∀ label after, ¬ system.Step state label after

/-- An execution without steps stays where it is. -/
theorem Execution.eq_of_nil {source target : State} (execution : system.Execution source [] target) :
    source = target := by
  generalize none : ([] : List Label) = history at execution
  cases execution with
  | refl => rfl
  | snoc => simp at none

theorem Final.stays {source target : State} {labels : List Label} (ends : system.Final source)
    (execution : system.Execution source labels target) : target = source := by
  induction execution with
  | refl => rfl
  | snoc _ step ih =>
      rw [ih] at step
      exact absurd step (ends _ _)

/-- An execution with some steps has a first one. -/
theorem Execution.uncons {source target : State} {label : Label} {labels : List Label}
    (execution : system.Execution source (label :: labels) target) :
    ∃ mid, system.Step source label mid ∧ system.Execution mid labels target := by
  generalize whole : label :: labels = history at execution
  induction execution generalizing labels with
  | refl => cases whole
  | @snoc mid target front last earlier step ih =>
      cases front with
      | nil =>
          cases whole
          cases earlier.eq_of_nil
          exact ⟨target, step, .refl target⟩
      | cons first others =>
          cases whole
          obtain ⟨next, taken, rest⟩ := ih rfl
          exact ⟨next, taken, .snoc rest step⟩

namespace ConflictFree

variable (free : system.ConflictFree)

include free

/-- A step towards the end of an execution is one of its steps, wherever it stands there. -/
theorem advance {source next final : State} {label : Label} {labels : List Label}
    (execution : system.Execution source labels final) (ends : system.Final final)
    (step : system.Step source label next) :
    ∃ rest, labels.Perm (label :: rest) ∧ system.Execution next rest final := by
  induction labels generalizing source next with
  | nil =>
      cases execution.eq_of_nil
      exact absurd step (ends label next)
  | cons first others ih =>
      obtain ⟨mid, taken, rest⟩ := execution.uncons
      by_cases same : first = label
      · subst same
        cases free.deterministic taken step
        exact ⟨others, List.Perm.refl _, rest⟩
      · obtain ⟨both, later, sooner⟩ := free.commutes same taken step
        obtain ⟨left, reordered, finishes⟩ := ih rest later
        refine ⟨first :: left, ?_, .cons sooner finishes⟩
        exact (reordered.cons first).trans (List.Perm.swap label first left)

/-- **One end.** When one execution comes to an end, every other one can go on to it, and
takes the same steps altogether. -/
theorem finishes {source mid final : State} {front labels : List Label}
    (execution : system.Execution source labels final) (ends : system.Final final)
    (begun : system.Execution source front mid) :
    ∃ back, labels.Perm (front ++ back) ∧ system.Execution mid back final := by
  induction begun with
  | refl => exact ⟨labels, List.Perm.refl _, execution⟩
  | @snoc mid target front label earlier step ih =>
      obtain ⟨back, reordered, rest⟩ := ih
      obtain ⟨left, others, finishes⟩ := free.advance rest ends step
      refine ⟨left, ?_, finishes⟩
      rw [List.append_assoc, List.singleton_append]
      exact reordered.trans (others.append_left front)

/-- **Confluence.** Two executions can go on to a common state. -/
theorem joins {source first second : State} {labels labels' : List Label}
    (execution : system.Execution source labels first)
    (execution' : system.Execution source labels' second) :
    ∃ back back' common, system.Execution first back common ∧
      system.Execution second back' common := by
  have walk {target : State} {history : List Label}
      (run : system.Execution source history target) :
      Relation.ReflTransGen (fun before after => ∃ label, system.Step before label after)
        source target := by
    induction run with
    | refl => exact .refl
    | snoc _ step ih => exact ih.tail ⟨_, step⟩
  have unwalk {start target : State}
      (path : Relation.ReflTransGen (fun before after => ∃ label, system.Step before label after)
        start target) : ∃ history, system.Execution start history target := by
    induction path with
    | refl => exact ⟨[], .refl _⟩
    | tail _ step ih =>
        obtain ⟨history, run⟩ := ih
        obtain ⟨label, taken⟩ := step
        exact ⟨history ++ [label], .snoc run taken⟩
  obtain ⟨common, left, right⟩ := Relation.church_rosser (by
    rintro state one other ⟨label, taken⟩ ⟨label', taken'⟩
    by_cases same : label = label'
    · subst same
      cases free.deterministic taken taken'
      exact ⟨one, .refl, .refl⟩
    · obtain ⟨both, later, sooner⟩ := free.commutes same taken taken'
      exact ⟨both, .single ⟨label', later⟩, .single ⟨label, sooner⟩⟩)
    (walk execution) (walk execution')
  obtain ⟨back, onwards⟩ := unwalk left
  obtain ⟨back', onwards'⟩ := unwalk right
  exact ⟨back, back', common, onwards, onwards'⟩

end ConflictFree

end LabelledSystem

end Ympi.Foundation
