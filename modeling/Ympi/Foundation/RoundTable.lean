import Mathlib.Data.Fintype.Card
import Mathlib.Data.Nat.ModEq

/-! # Rounds of a table

A loop that starts one place after its home, goes on to the next place, and ends when it is back
comes by every other place once.
-/

namespace Ympi.Foundation

/-- The places that a loop comes by until it is at `home`. -/
def around {size : ℕ} (next : Fin size → Fin size) (home : Fin size) : ℕ → Fin size → List (Fin size)
  | 0, _ => []
  | fuel + 1, place => if place = home then [] else place :: around next home fuel (next place)

variable {size : ℕ}

/-- The place in turn `turn` of a loop. -/
def turning (home : Fin size) (turn : ℕ) : Fin size :=
  ⟨(home + 1 + turn) % size, Nat.mod_lt _ home.pos⟩

theorem turning_ne (home : Fin size) {turn : ℕ} (before : turn + 1 < size) :
    turning home turn ≠ home := by
  intro same
  have whole := congrArg Fin.val same
  simp only [turning] at whole
  have cycle : (home + (1 + turn)) % size = (home + 0) % size := by
    rw [← Nat.add_assoc, whole, Nat.add_zero, Nat.mod_eq_of_lt home.isLt]
  have none := Nat.ModEq.add_left_cancel' home.val cycle
  rw [Nat.ModEq, Nat.mod_eq_of_lt (by omega), Nat.zero_mod] at none
  omega

theorem turning_injective (home : Fin size) {turn turn' : ℕ} (small : turn < size)
    (small' : turn' < size) (same : turning home turn = turning home turn') : turn = turn' := by
  have equal := congrArg Fin.val same
  simp only [turning] at equal
  have cancelled := Nat.ModEq.add_left_cancel' (home.val + 1) equal
  rwa [Nat.ModEq, Nat.mod_eq_of_lt small, Nat.mod_eq_of_lt small'] at cancelled

theorem mem_drop_finRange {start : ℕ} {place : Fin size} :
    place ∈ (List.finRange size).drop start ↔ start ≤ place.val := by
  constructor
  · intro member
    obtain ⟨turn, bound, rfl⟩ := List.mem_iff_getElem.mp member
    simp
  · intro least
    refine List.mem_iff_getElem.mpr ⟨place.val - start, ?_, ?_⟩
    · simp only [List.length_drop, List.length_finRange]
      omega
    · apply Fin.ext
      simp only [List.getElem_drop, List.getElem_finRange, Fin.val_cast]
      omega

section Cyclic

variable {next : Fin size → Fin size} (cyclic : ∀ place, (next place).val = (place + 1) % size)
  (home : Fin size)

include cyclic

theorem around_turning {fuel left turn : ℕ} (enough : left ≤ fuel)
    (ends : turn + left + 1 = size) : around next home fuel (turning home turn) =
      (List.range' turn left).map (turning home) := by
  induction left generalizing fuel turn with
  | zero =>
      have back : turning home turn = home := by
        apply Fin.ext
        have whole : home.val + 1 + turn = home.val + size := by omega
        simp only [turning]
        rw [whole, Nat.add_mod_right, Nat.mod_eq_of_lt home.isLt]
      cases fuel with
      | zero => rfl
      | succ fuel => rw [around, if_pos back]; rfl
  | succ left ih =>
      obtain ⟨fuel, rfl⟩ := Nat.exists_eq_add_one.mpr (Nat.zero_lt_of_lt enough)
      have goesOn : next (turning home turn) = turning home (turn + 1) := by
        apply Fin.ext
        rw [cyclic]
        simp only [turning]
        rw [Nat.mod_add_mod]
        rfl
      rw [around, if_neg (turning_ne home (by omega)), goesOn, ih (by omega) (by omega)]
      rfl

/-- The loop takes one turn less than there are places. -/
theorem around_eq : around next home size (next home) =
    (List.range' 0 (size - 1)).map (turning home) := by
  have first : next home = turning home 0 := by
    apply Fin.ext
    rw [cyclic]
    rfl
  have ends : 0 + (size - 1) + 1 = size := by
    have positive := home.pos
    omega
  rw [first, around_turning cyclic home (Nat.sub_le _ _) ends]

theorem around_nodup : (around next home size (next home)).Nodup := by
  rw [around_eq cyclic]
  apply List.Nodup.map_on _ List.nodup_range'
  intro turn listed turn' listed' same
  have bound := List.mem_range'_1.mp listed
  have bound' := List.mem_range'_1.mp listed'
  exact turning_injective home (by omega) (by omega) same

theorem length_around : (around next home size (next home)).length = size - 1 := by
  rw [around_eq cyclic, List.length_map, List.length_range']

/-- The loop comes by every other place. -/
theorem mem_around {place : Fin size} :
    place ∈ around next home size (next home) ↔ place ≠ home := by
  have inside : (around next home size (next home)).toFinset ⊆ Finset.univ.erase home := by
    intro other member
    rw [List.mem_toFinset, around_eq cyclic] at member
    obtain ⟨turn, listed, rfl⟩ := List.mem_map.mp member
    have bound := List.mem_range'_1.mp listed
    exact Finset.mem_erase.mpr ⟨turning_ne home (by omega), Finset.mem_univ _⟩
  have full : (Finset.univ.erase home).card ≤
      (around next home size (next home)).toFinset.card := by
    rw [List.toFinset_card_of_nodup (around_nodup cyclic home), length_around cyclic,
      Finset.card_erase_of_mem (Finset.mem_univ home), Finset.card_univ, Fintype.card_fin]
  rw [← List.mem_toFinset, Finset.eq_of_subset_of_card_le inside full, Finset.mem_erase]
  exact and_iff_left (Finset.mem_univ place)

/-- The loop goes to the end of the table, and then on from its start. -/
theorem around_eq_append : around next home size (next home) =
    (List.finRange size).drop (home + 1) ++ (List.finRange size).take home := by
  have positive := home.isLt
  rw [around_eq cyclic]
  apply List.ext_getElem
  · simp only [List.length_map, List.length_range', List.length_append, List.length_drop,
      List.length_take, List.length_finRange]
    omega
  · intro turn bound _
    simp only [List.length_map, List.length_range'] at bound
    rw [List.getElem_append]
    apply Fin.ext
    split
    next early =>
      simp only [List.length_drop, List.length_finRange] at early
      simp [turning]
      exact Nat.mod_eq_of_lt (by omega)
    next late =>
      simp only [List.length_drop, List.length_finRange] at late
      simp [turning]
      rw [Nat.mod_eq_sub_mod (by omega), Nat.mod_eq_of_lt (by omega)]
      omega

end Cyclic

end Ympi.Foundation
