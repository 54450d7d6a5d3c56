import Mathlib.Logic.Function.Basic
import Mathlib.Data.List.Basic

/-! # Loops over the entries of a table

A loop goes over indices, looks at the entry of each and replaces it, with a state that it
hands from one turn to the next. It may stop with an error. Each index is visited once, so
what a turn finds in its entry is what was there before the loop.
-/

namespace Ympi.Foundation

universe u v

variable {ι : Type v} {σ α ε : Type u} [DecidableEq ι]

/-- The loop over `indices` from a state and a table on. -/
def forEach (body : ι → σ → α → Except ε (σ × α)) :
    List ι → σ → (ι → α) → Except ε (σ × (ι → α))
  | [], state, table => .ok (state, table)
  | index :: rest, state, table =>
      match body index state (table index) with
      | .error fault => .error fault
      | .ok (next, value) => forEach body rest next (Function.update table index value)

variable {body : ι → σ → α → Except ε (σ × α)} {indices : List ι} {state final : σ}
  {table result : ι → α}

/-- **Loops.** After a loop that did not stop, each visited entry is what a turn on the entry
before the loop stored there, and the others are as they were. -/
theorem forEach_ok (done : forEach body indices state table = .ok (final, result))
    (nodup : indices.Nodup) :
    (∀ index ∈ indices, ∃ before after, body index before (table index) =
      .ok (after, result index)) ∧ ∀ index, index ∉ indices → result index = table index := by
  induction indices generalizing state table with
  | nil =>
      cases done
      refine ⟨?_, fun _ _ => rfl⟩
      intro index member
      cases member
  | cons first rest ih =>
      rw [forEach] at done
      cases turn : body first state (table first) with
      | error fault =>
          rw [turn] at done
          cases done
      | ok next =>
          obtain ⟨after, value⟩ := next
          rw [turn] at done
          obtain ⟨fresh, distinct⟩ := List.nodup_cons.mp nodup
          obtain ⟨visited, kept⟩ := ih done distinct
          have own : result first = value := (kept first fresh).trans (Function.update_self ..)
          refine ⟨?_, ?_⟩
          · intro index member
            rcases List.mem_cons.mp member with rfl | later
            · exact ⟨state, after, by rw [own]; exact turn⟩
            · have apart : index ≠ first := by
                rintro rfl
                exact fresh later
              obtain ⟨before, after, stored⟩ := visited index later
              rw [Function.update_of_ne apart] at stored
              exact ⟨before, after, stored⟩
          · intro index outside
            have apart : index ≠ first := by
              rintro rfl
              exact outside List.mem_cons_self
            rw [kept index fun later => outside (List.mem_cons_of_mem _ later),
              Function.update_of_ne apart]

/-- An error of the loop is the error of one of its turns. -/
theorem forEach_error {fault : ε} (stopped : forEach body indices state table = .error fault) :
    ∃ index ∈ indices, ∃ before value, body index before value = .error fault := by
  induction indices generalizing state table with
  | nil => cases stopped
  | cons first rest ih =>
      rw [forEach] at stopped
      cases turn : body first state (table first) with
      | error fault' =>
          rw [turn] at stopped
          cases stopped
          exact ⟨first, List.mem_cons_self, state, table first, turn⟩
      | ok next =>
          rw [turn] at stopped
          obtain ⟨index, member, found⟩ := ih stopped
          exact ⟨index, List.mem_cons_of_mem first member, found⟩

end Ympi.Foundation
