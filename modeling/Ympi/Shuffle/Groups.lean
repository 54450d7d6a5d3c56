import Mathlib.Order.Partition.Finpartition
import Ympi.Shuffle.Exchange

/-! # The groups of an iteration

The ranks of the table of a rank in an iteration are those that differ from it in one digit
only. They are the same for all of them, so the groups of an iteration partition the ranks.
-/

namespace Ympi.Shuffle

open Foundation

/-- Blocks that are determined by each of their members partition a set. -/
theorem exists_finpartition {α : Type*} [DecidableEq α] (members : Finset α)
    (block : α → Finset α) (own : ∀ item ∈ members, item ∈ block item)
    (inside : ∀ item ∈ members, block item ⊆ members)
    (shared : ∀ item ∈ members, ∀ other ∈ block item, block other = block item) :
    ∃ partition : Finpartition members, partition.parts = members.image block := by
  refine ⟨.ofExistsUnique (members.image block) ?_ ?_ ?_, rfl⟩
  · intro part listed
    obtain ⟨item, member, rfl⟩ := Finset.mem_image.mp listed
    exact inside item member
  · intro item member
    refine ⟨block item, ⟨Finset.mem_image_of_mem _ member, own item member⟩, ?_⟩
    rintro part ⟨listed, here⟩
    obtain ⟨other, there, rfl⟩ := Finset.mem_image.mp listed
    exact (shared other there item here).symm
  · intro listed
    obtain ⟨item, member, empty⟩ := Finset.mem_image.mp listed
    exact Finset.notMem_empty item (empty ▸ own item member)

/-- The ranks of an iteration of the table. -/
def RouteTable.group (table : RouteTable) (iter : ℕ) : List ℕ :=
  (List.range (table.iterGroupSize iter)).map (table.successiveRank iter)

namespace BoardShape

variable {shape : BoardShape} {tables : ℕ → RouteTable} {iter base size rank : ℕ}

namespace ReplacesDigit

/-- The group of a rank consists of the ranks with another digit. -/
theorem group_eq (replaces : shape.ReplacesDigit tables iter base size)
    (below : rank < shape.numRanks) : (tables rank).group iter =
      (List.range size).map fun p => MixedRadix.setDigit base size rank p := by
  rw [RouteTable.group, replaces.iterGroupSize rank below]
  apply List.map_congr_left
  intro p listed
  exact replaces.successiveRank rank below p (List.mem_range.mp listed)

theorem group_nodup (replaces : shape.ReplacesDigit tables iter base size)
    (below : rank < shape.numRanks) : ((tables rank).group iter).Nodup := by
  rw [replaces.group_eq below]
  apply List.Nodup.map_on ?_ List.nodup_range
  intro first here second there same
  have digits := congrArg (MixedRadix.digit base size) same
  rwa [MixedRadix.digit_setDigit replaces.basePositive (List.mem_range.mp here),
    MixedRadix.digit_setDigit replaces.basePositive (List.mem_range.mp there)] at digits

theorem setDigit_lt (replaces : shape.ReplacesDigit tables iter base size)
    (below : rank < shape.numRanks) {p : ℕ} (small : p < size) :
    MixedRadix.setDigit base size rank p < shape.numRanks :=
  MixedRadix.setDigit_lt replaces.basePositive small replaces.divides below

/-- All members of a group have the same group. -/
theorem group_member (replaces : shape.ReplacesDigit tables iter base size)
    (below : rank < shape.numRanks) {member : ℕ} (listed : member ∈ (tables rank).group iter) :
    member < shape.numRanks ∧ (tables member).group iter = (tables rank).group iter := by
  rw [replaces.group_eq below] at listed
  obtain ⟨p, inRange, rfl⟩ := List.mem_map.mp listed
  have small := List.mem_range.mp inRange
  have inside := replaces.setDigit_lt below small
  refine ⟨inside, ?_⟩
  rw [replaces.group_eq inside, replaces.group_eq below]
  apply List.map_congr_left
  intro other _
  exact MixedRadix.setDigit_setDigit replaces.basePositive small

/-- A rank is in its group at the index of its digit, and only there. -/
theorem group_getElem?_iff (replaces : shape.ReplacesDigit tables iter base size)
    (below : rank < shape.numRanks) (p : ℕ) :
    ((tables rank).group iter)[p]? = some rank ↔ p = (tables rank).myId rank iter := by
  have own : MixedRadix.digit base size rank < size :=
    MixedRadix.digit_lt (by have := replaces.members; omega)
  rw [replaces.group_eq below, replaces.myId_eq below, List.getElem?_map, Option.map_eq_some_iff]
  refine ⟨?_, ?_⟩
  · rintro ⟨value, listed, same⟩
    obtain ⟨small, here⟩ := List.getElem?_eq_some_iff.mp listed
    rw [List.length_range] at small
    rw [List.getElem_range] at here
    rw [← same, here, MixedRadix.digit_setDigit replaces.basePositive (here ▸ small)]
  · rintro rfl
    exact ⟨_, List.getElem?_range own, MixedRadix.setDigit_digit⟩

end ReplacesDigit

end BoardShape

open BoardShape

/-- **Each iteration partitions the ranks.** The group of a rank has no rank twice, has the
rank itself at the index of its digit, and is the same for all its members. So the groups of
an iteration form a partition. -/
theorem iterations_partition_ranks (shape : BoardShape) (factored : shape.Factored)
    (fits : shape.numBoard * shape.boardSize ≤ maxNprocs) (start : ℕ → RouteTable)
    (empty : ∀ rank, (start rank).totalIter = 0) :
    ∃ tables : ℕ → RouteTable,
      (∀ rank < shape.numBoard * shape.boardSize,
        shape.generate rank (start rank) = some (tables rank) ∧
          (tables rank).totalIter = shape.numIterations) ∧
      ∀ iter < shape.numIterations,
        (∀ rank < shape.numBoard * shape.boardSize,
          ((tables rank).group iter).Nodup ∧
          (∀ p, ((tables rank).group iter)[p]? = some rank ↔
            p = rank / (tables rank).iterGroupBase iter % (tables rank).iterGroupSize iter) ∧
          ∀ member ∈ (tables rank).group iter, member < shape.numBoard * shape.boardSize ∧
            (tables member).group iter = (tables rank).group iter) ∧
        ∃ partition : Finpartition (Finset.range (shape.numBoard * shape.boardSize)),
          partition.parts = (Finset.range (shape.numBoard * shape.boardSize)).image fun rank =>
            ((tables rank).group iter).toFinset := by
  obtain ⟨tables, generated, holds⟩ := exists_holds factored fits fun rank _ => empty rank
  refine ⟨tables, fun rank below => ⟨generated rank below, (holds rank below).1⟩, ?_⟩
  intro iter early
  obtain ⟨base, size, replaces⟩ := exists_replacesDigit factored holds early
  refine ⟨?_, ?_⟩
  · intro rank below
    exact ⟨replaces.group_nodup below, replaces.group_getElem?_iff below, fun member listed =>
      replaces.group_member below listed⟩
  · apply exists_finpartition
    · intro rank member
      have own := (replaces.group_getElem?_iff (Finset.mem_range.mp member) _).mpr rfl
      exact List.mem_toFinset.mpr (List.mem_of_getElem? own)
    · intro rank member other listed
      exact Finset.mem_range.mpr
        (replaces.group_member (Finset.mem_range.mp member) (List.mem_toFinset.mp listed)).1
    · intro rank member other listed
      rw [(replaces.group_member (Finset.mem_range.mp member) (List.mem_toFinset.mp listed)).2]

/-- On six boards of twenty ranks rank 27 is in a group with rank 7 in the first iteration. -/
theorem iterations_partition_ranks_six : ∃ tables : ℕ → RouteTable,
    (∀ rank < 120, sixBoards.generate rank .init = some (tables rank)) ∧
      (tables 27).group 0 = [7, 27] ∧ (tables 7).group 0 = [7, 27] := by
  obtain ⟨tables, generated, partitions⟩ := iterations_partition_ranks sixBoards ⟨rfl, rfl⟩
    (by decide) (fun _ => .init) fun _ => rfl
  have seven : (tables 7).group 0 = [7, 27] := by
    have shown : (sixBoards.generate 7 .init).map (fun table => table.group 0) = some [7, 27] :=
      rfl
    rw [(generated 7 (by decide)).1] at shown
    exact Option.some.inj shown
  have same := (((partitions 0 (by decide)).1 7 (by decide)).2.2 27 (by rw [seven]; decide)).2
  exact ⟨tables, fun rank below => (generated rank below).1, same.trans seven, seven⟩

end Ympi.Shuffle
