import Mathlib.Order.Lattice
import Mathlib.Data.List.Basic
import Mathlib.Algebra.GroupWithZero.Nat
import Mathlib.Algebra.BigOperators.Group.List.Basic

/-! # Sorted lists and thresholds

In a list sorted in increasing order the elements from a threshold on form a suffix, and the
length of a suffix is the number of elements that are no smaller than its first one, or less
if more of them are equal to it.
-/

namespace Ympi.Foundation

universe u

variable {α : Type u} [LinearOrder α] {items : List α}

/-- The elements from a threshold on are a suffix. -/
theorem exists_suffix (sorted : items.Pairwise (· ≤ ·)) {least : α}
    (some : 0 < items.countP fun item => least ≤ item) :
    ∃ item rest, (item :: rest) <:+ items ∧ least ≤ item ∧
      rest.length + 1 = items.countP fun item => least ≤ item := by
  induction items with
  | nil => cases some
  | cons head tail ih =>
      obtain ⟨above, sorted'⟩ := List.pairwise_cons.mp sorted
      by_cases large : least ≤ head
      · refine ⟨head, tail, List.suffix_refl _, large, ?_⟩
        have all : (head :: tail).countP (fun item => least ≤ item) = (head :: tail).length := by
          rw [List.countP_eq_length]
          intro item member
          rcases List.mem_cons.mp member with rfl | later
          · exact decide_eq_true large
          · exact decide_eq_true (large.trans (above item later))
        rw [all, List.length_cons]
      · have dropped : (head :: tail).countP (fun item => least ≤ item) =
            tail.countP fun item => least ≤ item :=
          List.countP_cons_of_neg (by simpa using large)
        rw [dropped] at some ⊢
        obtain ⟨item, rest, suffix, reaches, counted⟩ := ih sorted' some
        exact ⟨item, rest, suffix.trans (List.suffix_cons head tail), reaches, counted⟩

/-- A suffix is no longer than the number of elements from its first one on. -/
theorem suffix_length_le (sorted : items.Pairwise (· ≤ ·)) {item : α} {rest : List α}
    (suffix : (item :: rest) <:+ items) :
    rest.length + 1 ≤ items.countP fun other => item ≤ other := by
  have above := (List.pairwise_cons.mp (sorted.sublist suffix.sublist)).1
  have all : (item :: rest).countP (fun other => item ≤ other) = rest.length + 1 := by
    rw [List.countP_eq_length.mpr, List.length_cons]
    intro other member
    rcases List.mem_cons.mp member with rfl | later
    · exact decide_eq_true le_rfl
    · exact decide_eq_true (above other later)
  rw [← all]
  exact suffix.sublist.countP_le

/-- As many elements of a sorted list have the key of one of the first `count` ones, unless the
element after them has the same key as the last of them. -/
theorem countP_take_iff {β : Type*} {key : β → α} {items : List β}
    (sorted : items.Pairwise fun first second => key first ≤ key second) {count : ℕ}
    (positive : 0 < count) (long : count ≤ items.length) :
    items.countP (fun item => (items.take count).any fun first => key first = key item) = count ↔
      ∀ last next, items[count - 1]? = some last → items[count]? = some next →
        key last ≠ key next := by
  have front : (items.take count).countP
      (fun item => (items.take count).any fun first => key first = key item) = count := by
    rw [List.countP_eq_length.mpr, List.length_take_of_le long]
    intro item member
    exact List.any_eq_true.mpr ⟨item, member, decide_eq_true rfl⟩
  have split : items.countP (fun item => (items.take count).any fun first => key first = key item) =
      count + (items.drop count).countP
        (fun item => (items.take count).any fun first => key first = key item) := by
    conv_lhs => rw [← List.take_append_drop count items, List.countP_append]
    rw [List.take_append_drop, front]
  have ordered {first second : ℕ} (below : first ≤ second) (here : first < items.length)
      (there : second < items.length) : key items[first] ≤ key items[second] := by
    rcases Nat.eq_or_lt_of_le below with rfl | before
    · exact le_rfl
    · exact List.pairwise_iff_getElem.mp sorted _ _ _ _ before
  rw [split, Nat.add_eq_left, List.countP_eq_zero]
  refine ⟨fun apart last next here there same => ?_, fun differs item member => ?_⟩
  · have taken : last ∈ items.take count := by
      refine List.mem_of_getElem? (i := count - 1) ?_
      rw [List.getElem?_take_of_lt (by omega)]
      exact here
    have dropped : next ∈ items.drop count := by
      refine List.mem_of_getElem? (i := 0) ?_
      rw [List.getElem?_drop]
      exact there
    exact apart next dropped (List.any_eq_true.mpr ⟨last, taken, decide_eq_true same⟩)
  · rw [List.any_eq_true]
    rintro ⟨first, taken, equal⟩
    have same := of_decide_eq_true equal
    obtain ⟨index, here, rfl⟩ := List.mem_take_iff_getElem.mp taken
    obtain ⟨offset, there, rfl⟩ := List.mem_drop_iff_getElem.mp member
    refine differs _ _ (List.getElem?_eq_getElem (by omega))
      (List.getElem?_eq_getElem (by omega)) ?_
    -- The keys between two equal ones are equal to them.
    have low := @ordered index (count - 1) (by omega) (by omega) (by omega)
    have middle := @ordered (count - 1) count (by omega) (by omega) (by omega)
    have high := @ordered count (count + offset) (by omega) (by omega) (by omega)
    exact le_antisymm middle ((high.trans same.ge).trans low)

/-- Elements of at least some size have at least that size each. -/
theorem countP_mul_le_sum (least : ℕ) (sizes : List ℕ) :
    (sizes.countP fun size => least ≤ size) * least ≤ sizes.sum := by
  induction sizes with
  | nil => exact Nat.le_of_eq (Nat.zero_mul least)
  | cons size rest ih =>
      rw [List.sum_cons, List.countP_cons, Nat.add_mul]
      split
      next large =>
        have large := of_decide_eq_true large
        omega
      next => omega

end Ympi.Foundation
