import Mathlib.Data.List.Basic

/-! # Blocks of an addressed store

A store assigns a value to every address. A block of it is read as a list, and a
list is written from an address on. What a write does to a block is decided by
whether their address ranges meet.
-/

namespace Ympi.Foundation

universe u

variable {β : Type u}

/-- The `length` values from `address` on. -/
def readBlock (store : ℕ → β) (address length : ℕ) : List β :=
  (List.range length).map fun i => store (address + i)

/-- Write `data` from `address` on. -/
def writeBlock (store : ℕ → β) (address : ℕ) (data : List β) : ℕ → β := fun target =>
  if address ≤ target then (data[target - address]?).getD (store target) else store target

variable (store : ℕ → β) (address : ℕ)

@[simp] theorem length_readBlock (length : ℕ) :
    (readBlock store address length).length = length := by
  simp [readBlock]

theorem getElem?_readBlock {length i : ℕ} (inside : i < length) :
    (readBlock store address length)[i]? = some (store (address + i)) := by
  simp [readBlock, inside]

/-- A block depends only on the values at its addresses. -/
theorem readBlock_congr {store store' : ℕ → β} {address length : ℕ}
    (agree : ∀ i < length, store' (address + i) = store (address + i)) :
    readBlock store' address length = readBlock store address length := by
  apply List.map_congr_left
  intro i member
  exact agree i (List.mem_range.mp member)

@[simp] theorem writeBlock_nil : writeBlock store address [] = store := by
  funext target
  simp [writeBlock]

/-- A write changes nothing outside its range. -/
theorem writeBlock_of_outside {address target : ℕ} {data : List β}
    (outside : target < address ∨ address + data.length ≤ target) :
    writeBlock store address data target = store target := by
  unfold writeBlock
  split
  next above =>
    have past : data.length ≤ target - address := by omega
    rw [List.getElem?_eq_none past]
    rfl
  next => rfl

theorem writeBlock_of_inside {data : List β} {i : ℕ} {value : β} (located : data[i]? = some value) :
    writeBlock store address data (address + i) = value := by
  unfold writeBlock
  rw [if_pos (Nat.le_add_right address i), Nat.add_sub_cancel_left, located]
  rfl

/-- A block that was just written reads back as written. -/
theorem readBlock_writeBlock_self (data : List β) :
    readBlock (writeBlock store address data) address data.length = data := by
  apply List.ext_getElem?
  intro i
  by_cases inside : i < data.length
  · rw [getElem?_readBlock _ _ inside,
      writeBlock_of_inside store address (List.getElem?_eq_getElem inside),
      List.getElem?_eq_getElem inside]
  · have past : data.length ≤ i := by omega
    rw [List.getElem?_eq_none past, List.getElem?_eq_none (by simpa using past)]

/-- Writing what is in place changes nothing. -/
theorem writeBlock_readBlock (length : ℕ) :
    writeBlock store address (readBlock store address length) = store := by
  funext target
  by_cases inside : address ≤ target ∧ target - address < length
  · obtain ⟨low, high⟩ := inside
    have located := getElem?_readBlock store address high
    rw [Nat.add_sub_cancel' low] at located
    unfold writeBlock
    rw [if_pos low, located]
    rfl
  · apply writeBlock_of_outside
    rw [length_readBlock]
    omega

/-- A block apart from the written range is unchanged. -/
theorem readBlock_writeBlock_apart {start length : ℕ} {data : List β}
    (apart : start + length ≤ address ∨ address + data.length ≤ start) :
    readBlock (writeBlock store address data) start length = readBlock store start length := by
  apply readBlock_congr
  intro i inside
  apply writeBlock_of_outside
  omega

/-- Slots of one width do not overlap. -/
theorem slots_apart {first second width : ℕ} (distinct : first ≠ second) :
    first * width + width ≤ second * width ∨ second * width + width ≤ first * width := by
  rcases Nat.lt_or_gt_of_ne distinct with below | above
  · apply Or.inl
    rw [← Nat.succ_mul]
    exact Nat.mul_le_mul_right width below
  · apply Or.inr
    rw [← Nat.succ_mul]
    exact Nat.mul_le_mul_right width above

end Ympi.Foundation
