import Mathlib.Data.List.Nodup
import Mathlib.Data.List.Range
import Mathlib.Data.Nat.ModEq

/-! # Slots of a ring

A ring has the slots below `n`. From a slot on, so many slots follow one another, and after the
last one the first one comes again. A stretch of slots and the stretch behind it make
up the ring if they have `n` slots together.
-/

namespace Ympi.Foundation

/-- The slots of a ring of `n` from `start` on. -/
def ring (n start count : ℕ) : List ℕ :=
  (List.range count).map fun turn => (start + turn) % n

variable {n start count slot : ℕ}

@[simp] theorem length_ring : (ring n start count).length = count := by
  rw [ring, List.length_map, List.length_range]

/-- A stretch of slots and the one behind it. -/
theorem ring_add (n start first second : ℕ) :
    ring n start (first + second) = ring n start first ++ ring n ((start + first) % n) second := by
  rw [ring, List.range_add, List.map_append, List.map_map]
  congr 1
  apply List.map_congr_left
  intro turn _
  rw [Function.comp_apply, Nat.mod_add_mod, Nat.add_assoc]

theorem ring_succ (below : start < n) :
    ring n start (count + 1) = start :: ring n ((start + 1) % n) count := by
  have first : ring n start 1 = [start] := by
    rw [ring, List.range_one, List.map_singleton, Nat.add_zero, Nat.mod_eq_of_lt below]
  rw [Nat.add_comm, ring_add, first, List.singleton_append]

theorem lt_of_mem_ring (positive : 0 < n) (member : slot ∈ ring n start count) : slot < n := by
  obtain ⟨turn, -, rfl⟩ := List.mem_map.mp member
  exact Nat.mod_lt _ positive

/-- No slot comes twice in a turn. -/
theorem nodup_ring (short : count ≤ n) : (ring n start count).Nodup := by
  apply List.Nodup.map_on ?_ List.nodup_range
  intro first below second below' same
  rw [List.mem_range] at below below'
  have agree : first % n = second % n := Nat.ModEq.add_left_cancel' start same
  rwa [Nat.mod_eq_of_lt (by omega), Nat.mod_eq_of_lt (by omega)] at agree

/-- In a turn every slot comes. -/
theorem mem_ring_turn (below : start < n) (inside : slot < n) : slot ∈ ring n start n := by
  rw [ring, List.mem_map]
  rcases Nat.lt_or_ge slot start with before | after
  · refine ⟨slot + n - start, List.mem_range.mpr (by omega), ?_⟩
    rw [show start + (slot + n - start) = slot + n by omega, Nat.add_mod_right,
      Nat.mod_eq_of_lt inside]
  · refine ⟨slot - start, List.mem_range.mpr (by omega), ?_⟩
    rw [Nat.add_sub_cancel' after, Nat.mod_eq_of_lt inside]

/-- The stretch behind the first slots of a turn has all the others. -/
theorem mem_ring_rest (below : start < n) (short : count ≤ n) :
    slot ∈ ring n ((start + count) % n) (n - count) ↔
      slot < n ∧ slot ∉ ring n start count := by
  have turn := ring_add n start count (n - count)
  rw [Nat.add_sub_cancel' short] at turn
  refine ⟨fun member => ⟨lt_of_mem_ring (Nat.zero_lt_of_lt below) member, fun other => ?_⟩, ?_⟩
  · have nodup : (ring n start n).Nodup := nodup_ring le_rfl
    rw [turn] at nodup
    exact (List.nodup_append.mp nodup).2.2 slot other slot member rfl
  · rintro ⟨inside, other⟩
    have member := mem_ring_turn below inside
    rw [turn] at member
    exact (List.mem_append.mp member).resolve_left other

end Ympi.Foundation
