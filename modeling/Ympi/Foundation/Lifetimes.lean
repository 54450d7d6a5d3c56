import Mathlib.Data.List.Basic
import Mathlib.Data.List.Count
import Mathlib.Data.List.Nodup

/-! # Objects that are created and released

The creations and releases of a run, in their order. A run that creates some objects first
and then releases different ones of them is orderly, and it leaks the others.
-/

namespace Ympi.Foundation

/-- A creation or release of an object. -/
inductive Lifetime (α : Type) where
  | created (object : α)
  | released (object : α)
  deriving DecidableEq, Repr

namespace Lifetime

variable {α : Type} [DecidableEq α] {events : List (Lifetime α)} {made gone : List α} {object : α}

/-- Each object is released at most once, and not before it has been created. -/
structure Orderly (events : List (Lifetime α)) : Prop where
  once : ∀ object, events.count (released object) ≤ 1
  later : ∀ before object after, events = before ++ released object :: after →
    created object ∈ before

/-- Each object that has been created has been released exactly once, and no other object has
been released. -/
def Settled (events : List (Lifetime α)) : Prop :=
  ∀ object, events.count (released object) = if created object ∈ events then 1 else 0

/-- An object was created and is not released. -/
def Leaks (events : List (Lifetime α)) (object : α) : Prop :=
  created object ∈ events ∧ released object ∉ events

/-- A run that creates `made` and then releases `gone`. -/
def unwinding (made gone : List α) : List (Lifetime α) :=
  made.map created ++ gone.map released

omit [DecidableEq α] in
@[simp] theorem created_mem_unwinding : created object ∈ unwinding made gone ↔ object ∈ made := by
  simp [unwinding]

omit [DecidableEq α] in
@[simp] theorem released_mem_unwinding : released object ∈ unwinding made gone ↔ object ∈ gone := by
  simp [unwinding]

theorem count_unwinding (made gone : List α) (object : α) :
    (unwinding made gone).count (released object) = gone.count object := by
  have none : (made.map created).count (released object) = 0 :=
    List.count_eq_zero.mpr (by simp)
  have each : (gone.map released).count (released object) = gone.count object :=
    List.count_map_of_injective gone released (fun _ _ => released.inj) object
  rw [unwinding, List.count_append, none, each, Nat.zero_add]

omit [DecidableEq α] in
theorem leaks_unwinding : Leaks (unwinding made gone) object ↔ object ∈ made ∧ object ∉ gone := by
  rw [Leaks, created_mem_unwinding, released_mem_unwinding]

/-- A run that releases different objects among those it has created is orderly. -/
theorem orderly_unwinding (nodup : gone.Nodup) (own : ∀ object ∈ gone, object ∈ made) :
    Orderly (unwinding made gone) where
  once object := by
    rw [count_unwinding]
    exact List.nodup_iff_count_le_one.mp nodup object
  later before object after split := by
    have found : released object ∈ unwinding made gone := by
      rw [split]
      exact List.mem_append_right _ List.mem_cons_self
    have member := released_mem_unwinding.mp found
    have listed : created object ∈ made.map created := List.mem_map_of_mem (own object member)
    rcases List.append_eq_append_iff.mp split with ⟨rest, same, -⟩ | ⟨rest, same, tail⟩
    · rw [same]
      exact List.mem_append_left rest listed
    · cases rest with
      | nil => rwa [same, List.append_nil] at listed
      | cons first rest =>
          -- The release would be among the creations.
          cases tail
          have inside : released object ∈ made.map created := by
            rw [same]
            exact List.mem_append_right before List.mem_cons_self
          simp at inside

/-- An orderly run settles exactly when it leaks nothing. -/
theorem Orderly.settled_iff (orderly : Orderly events) :
    Settled events ↔ ∀ object, ¬ Leaks events object := by
  refine ⟨fun settled object leaks => ?_, fun none object => ?_⟩
  · have count := settled object
    rw [if_pos leaks.1, List.count_eq_zero.mpr leaks.2] at count
    cases count
  · by_cases born : created object ∈ events
    · have found : released object ∈ events := by
        by_contra missing
        exact none object ⟨born, missing⟩
      have some := List.count_pos_iff.mpr found
      have most := orderly.once object
      rw [if_pos born]
      omega
    · have missing : released object ∉ events := by
        intro found
        obtain ⟨before, after, split⟩ := List.append_of_mem found
        exact born (split ▸ List.mem_append_left _ (orderly.later before object after split))
      rw [if_neg born, List.count_eq_zero.mpr missing]

/-- No object is released while another one that needs it is there. -/
def Nested (needs : α → α → Prop) (events : List (Lifetime α)) : Prop :=
  ∀ before object after, events = before ++ released object :: after →
    ∀ other, needs other object → created other ∈ before → released other ∈ before

omit [DecidableEq α] in
/-- The releases of a run come after its creations. -/
theorem exists_of_unwinding {before after : List (Lifetime α)}
    (split : unwinding made gone = before ++ released object :: after) :
    ∃ front back, gone = front ++ object :: back ∧
      before = made.map created ++ front.map released := by
  induction made generalizing before with
  | nil =>
      obtain ⟨front, last, parts, early, late⟩ := List.map_eq_append_iff.mp split
      obtain ⟨first, back, whole, same, -⟩ := List.map_eq_cons_iff.mp late
      cases same
      refine ⟨front, back, ?_, early.symm⟩
      rw [parts, whole]
  | cons first rest ih =>
      cases before with
      | nil => cases split
      | cons event before =>
          obtain ⟨rfl, inner⟩ := List.cons.inj split
          obtain ⟨front, back, parts, rfl⟩ := ih inner
          exact ⟨front, back, parts, rfl⟩

omit [DecidableEq α] in
/-- A run that releases all that it has created, those that are needed last, is nested. -/
theorem nested_unwinding {needs : α → α → Prop} (all : ∀ object ∈ made, object ∈ gone)
    (ordered : gone.Pairwise fun first later => ¬ needs later first)
    (irreflexive : ∀ object, ¬ needs object object) : Nested needs (unwinding made gone) := by
  intro before object after split other needed born
  obtain ⟨front, back, rfl, rfl⟩ := exists_of_unwinding split
  have inside : other ∈ made := by simpa using born
  apply List.mem_append_right
  apply List.mem_map_of_mem
  rcases List.mem_append.mp (all other inside) with early | late
  · exact early
  · rcases List.mem_cons.mp late with rfl | behind
    · exact absurd needed (irreflexive other)
    · have first := (List.pairwise_append.mp ordered).2.1
      exact absurd needed ((List.pairwise_cons.mp first).1 other behind)

end Lifetime

end Ympi.Foundation
