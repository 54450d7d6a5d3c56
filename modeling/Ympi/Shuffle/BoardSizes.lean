import Ympi.Foundation.Thresholds
import Ympi.Shuffle.Boards
import Ympi.Shuffle.SmoothNumbers

/-! # The choice of the board size

The first scan collects how many processes each board has, and the loop over the sorted
sizes looks for the one with the largest product of the size and the number of boards
from it on. So many processes could take part if boards were used up to that size, and no
other size would do better. A size below 4 is rounded down to 0, where the table of factors has no
entry.
-/

namespace Ympi.Shuffle

open Foundation

section ChooseBoardSize

/-- No size has a larger product with the number of sizes from it on than the result. -/
theorem chooseBoardSize_max (maxNp boardSize : ℕ) (sizes : List ℕ) :
    maxNp ≤ (chooseBoardSize maxNp boardSize sizes).1 ∧
      ∀ size rest, (size :: rest) <:+ sizes →
        size * (rest.length + 1) ≤ (chooseBoardSize maxNp boardSize sizes).1 := by
  induction sizes generalizing maxNp boardSize with
  | nil =>
      refine ⟨le_rfl, fun size rest suffix => ?_⟩
      cases List.suffix_nil.mp suffix
  | cons head tail ih =>
      rw [chooseBoardSize]
      split
      next better =>
        obtain ⟨grows, later⟩ := ih (head * (tail.length + 1)) head
        refine ⟨better.le.trans grows, fun size rest suffix => ?_⟩
        rcases List.suffix_cons_iff.mp suffix with same | further
        · cases same
          exact grows
        · exact later size rest further
      next worse =>
        obtain ⟨grows, later⟩ := ih maxNp boardSize
        refine ⟨grows, fun size rest suffix => ?_⟩
        rcases List.suffix_cons_iff.mp suffix with same | further
        · cases same
          exact (Nat.le_of_not_lt worse).trans grows
        · exact later size rest further

/-- The result is the product of the size that is chosen, which is larger than the products
of the sizes before it, or nothing was better than before the loop. -/
theorem chooseBoardSize_first (maxNp boardSize : ℕ) (sizes : List ℕ) :
    chooseBoardSize maxNp boardSize sizes = (maxNp, boardSize) ∨
      ∃ size rest, (size :: rest) <:+ sizes ∧
        chooseBoardSize maxNp boardSize sizes = (size * (rest.length + 1), size) ∧
        maxNp < size * (rest.length + 1) ∧
        ∀ other longer, (other :: longer) <:+ sizes → rest.length < longer.length →
          other * (longer.length + 1) < size * (rest.length + 1) := by
  induction sizes generalizing maxNp boardSize with
  | nil => exact Or.inl rfl
  | cons head tail ih =>
      rw [chooseBoardSize]
      have short {size : ℕ} {rest : List ℕ} (suffix : (size :: rest) <:+ tail) :
          rest.length < tail.length := suffix.length_le
      split
      next better =>
        refine Or.inr ?_
        rcases ih (head * (tail.length + 1)) head with kept | ⟨size, rest, suffix, found, beats, before⟩
        · refine ⟨head, tail, List.suffix_refl _, kept, better, fun other longer suffix' further => ?_⟩
          have := suffix'.length_le
          rw [List.length_cons, List.length_cons] at this
          omega
        · refine ⟨size, rest, suffix.trans (List.suffix_cons head tail), found,
            better.trans beats, fun other longer suffix' further => ?_⟩
          rcases List.suffix_cons_iff.mp suffix' with same | inside
          · cases same
            exact beats
          · exact before other longer inside further
      next worse =>
        rcases ih maxNp boardSize with kept | ⟨size, rest, suffix, found, beats, before⟩
        · exact Or.inl kept
        · refine Or.inr ⟨size, rest, suffix.trans (List.suffix_cons head tail), found, beats,
            fun other longer suffix' further => ?_⟩
          rcases List.suffix_cons_iff.mp suffix' with same | inside
          · cases same
            exact (Nat.le_of_not_lt worse).trans_lt beats
          · exact before other longer inside further

/-- **The chosen size.** Among the thresholds the chosen size has the largest product with the
number of sizes that reach it, and it is the lowest size with this product. -/
theorem chooseBoardSize_optimal {sizes : List ℕ} (sorted : sizes.Pairwise (· ≤ ·))
    (some : sizes ≠ []) (positive : ∀ size ∈ sizes, 0 < size) {best boardSize : ℕ}
    (chosen : chooseBoardSize 0 0 sizes = (best, boardSize)) :
    boardSize ∈ sizes ∧ best = boardSize * sizes.countP (boardSize ≤ ·) ∧
      (∀ least, least * sizes.countP (least ≤ ·) ≤ best) ∧
      ∀ least < boardSize, least * sizes.countP (least ≤ ·) < best := by
  have upper : ∀ least, least * sizes.countP (least ≤ ·) ≤ best := by
    intro least
    rcases Nat.eq_zero_or_pos (sizes.countP (least ≤ ·)) with none | reached
    · rw [none, Nat.mul_zero]
      exact Nat.zero_le best
    · obtain ⟨size, rest, suffix, reaches, counted⟩ := exists_suffix sorted reached
      have bounded := (chooseBoardSize_max 0 0 sizes).2 size rest suffix
      rw [chosen] at bounded
      rw [← counted]
      exact (Nat.mul_le_mul_right _ reaches).trans bounded
  rcases chooseBoardSize_first 0 0 sizes with kept | ⟨size, rest, suffix, found, -, before⟩
  · -- The first size is better than nothing.
    obtain ⟨head, tail, rfl⟩ := List.exists_cons_of_ne_nil some
    have better := (chooseBoardSize_max 0 0 (head :: tail)).2 head tail (List.suffix_refl _)
    have product := Nat.mul_pos (positive head List.mem_cons_self) (Nat.succ_pos tail.length)
    rw [kept] at better
    exact absurd product (Nat.not_lt.mpr better)
  · cases chosen.symm.trans found
    have member : boardSize ∈ sizes := suffix.subset List.mem_cons_self
    have most := suffix_length_le sorted suffix
    refine ⟨member, le_antisymm (Nat.mul_le_mul_left _ most) (upper boardSize), upper, ?_⟩
    intro least below
    rcases Nat.eq_zero_or_pos (sizes.countP (least ≤ ·)) with none | reached
    · rw [none, Nat.mul_zero]
      exact Nat.mul_pos (Nat.zero_lt_of_lt below) (Nat.succ_pos _)
    · obtain ⟨first, longer, suffix', reaches, counted⟩ := exists_suffix sorted reached
      rw [← counted] at reached ⊢
      by_cases further : rest.length < longer.length
      · exact (Nat.mul_le_mul_right _ reaches).trans_lt (before first longer suffix' further)
      · -- As many sizes reach the chosen one, which is larger.
        exact (Nat.mul_lt_mul_of_pos_right below reached).trans_le
          (Nat.mul_le_mul_left _ (by omega))

end ChooseBoardSize

namespace Placement

variable (placement : Placement)

/-- The number of boards that have at least so many processes. -/
def boardsWith (least : ℕ) : ℕ :=
  placement.boardIds.countP fun board => least ≤ (placement.onBoard board).length

variable {placement}

theorem countP_boardSizes (least : ℕ) :
    placement.boardSizes.countP (least ≤ ·) = placement.boardsWith least := by
  rw [boardSizes, (sortBy_perm id _).countP_eq, List.countP_map]
  rfl

theorem boardSizes_pos : ∀ size ∈ placement.boardSizes, 0 < size := by
  intro size listed
  obtain ⟨board, member, rfl⟩ := List.mem_map.mp (mem_sortBy.mp listed)
  obtain ⟨rank, aboard⟩ := mem_boardIds.mp member
  exact List.length_pos_of_mem (mem_onBoard.mpr aboard)

theorem boardSizes_le : ∀ size ∈ placement.boardSizes, size ≤ placement.nprocs := by
  intro size listed
  obtain ⟨board, -, rfl⟩ := List.mem_map.mp (mem_sortBy.mp listed)
  rw [onBoard, length_sortBy]
  exact (List.length_filter_le _ _).trans List.length_finRange.le

/-- The chosen size of a placement, said with the boards that reach a threshold. -/
theorem chosen_optimal (some : 0 < placement.nprocs) {best boardSize : ℕ}
    (chosen : chooseBoardSize 0 0 placement.boardSizes = (best, boardSize)) :
    boardSize ∈ placement.boardSizes ∧ best = boardSize * placement.boardsWith boardSize ∧
      (∀ least, least * placement.boardsWith least ≤ best) ∧
      ∀ least < boardSize, least * placement.boardsWith least < best := by
  simp only [← countP_boardSizes]
  exact chooseBoardSize_optimal (sortBy_pairwise id _) (boardSizes_ne_nil some) boardSizes_pos chosen

/-- The sizes that the first scan has found are those of the boards. -/
theorem boardSizes_of_scan {first : ℕ} {rest sizes : List ℕ}
    (sorted : placement.cpuids = first :: rest)
    (scanned : scanBoards [] 0 1 (boardId first) rest = .ok sizes) :
    placement.boardIds.length ≤ maxNumBoard ∧ placement.boardSizes = sortBy id sizes := by
  obtain ⟨boards, rfl⟩ := (scanBoards_cpuids sorted).mp scanned
  exact ⟨boards, rfl⟩

/-- The lowest size whose product with the number of boards that reach it is the largest. -/
def IsBestSize (placement : Placement) (size : ℕ) : Prop :=
  IsLeast {size | ∀ other, other * placement.boardsWith other ≤ size * placement.boardsWith size} size

/-- The shape that the sizes of the boards give: the best size is rounded down to four times a
number with the factors 2, 3 and 5, and so is the number of boards that have so many processes. -/
def IsShape (placement : Placement) (numBoard boardSize : ℕ) : Prop :=
  ∃ size places, placement.IsBestSize size ∧ IsRounded (size / 4) places ∧
    boardSize = places * 4 ∧ IsRounded (placement.boardsWith boardSize) numBoard

theorem isRounded_of_lookup {number : ℕ} {entry : Factorized}
    (found : lookupFactorized number = .ok entry) (small : number ≤ maxNprocs) :
    IsRounded number entry.number := by
  rw [lookupFactorized] at found
  split at found
  next entry' looked =>
    cases found
    exact isRounded_of_found looked small
  next => cases found

theorem IsShape.unique {numBoard boardSize numBoard' boardSize' : ℕ}
    (first : placement.IsShape numBoard boardSize)
    (second : placement.IsShape numBoard' boardSize') :
    numBoard = numBoard' ∧ boardSize = boardSize' := by
  obtain ⟨size, places, best, rounded, rfl, boards⟩ := first
  obtain ⟨size', places', best', rounded', rfl, boards'⟩ := second
  obtain rfl := best.unique best'
  obtain rfl := rounded.unique rounded'
  exact ⟨boards.unique boards', rfl⟩

/-- The loop over the sizes finds the best one. -/
theorem isBestSize_chosen (some : 0 < placement.nprocs) :
    placement.IsBestSize (chooseBoardSize 0 0 placement.boardSizes).2 := by
  obtain ⟨-, product, most, less⟩ := chosen_optimal some
    (Prod.eta (chooseBoardSize 0 0 placement.boardSizes)).symm
  rw [product] at most less
  refine ⟨most, fun size better => ?_⟩
  by_contra lower
  exact absurd (better _) (Nat.not_le.mpr (less size (Nat.lt_of_not_le lower)))

/-- What the code chooses is the shape of the sizes. -/
theorem isShape_of_chosen (some : 0 < placement.nprocs) (fits : placement.nprocs ≤ maxNprocs)
    (boards : placement.boardIds.length ≤ maxNumBoard) {shape : BoardShape}
    (chosen : chooseShape placement.boardSizes = .ok shape) :
    placement.IsShape shape.numBoard shape.boardSize := by
  obtain ⟨entry, boardEntry, found, found', rfl⟩ := exists_lookups chosen
  have size := boardSizes_le _ (chosen_mem (boardSizes_ne_nil some) boardSizes_pos)
  have count : placement.boardSizes.countP (fun size => entry.number * 4 ≤ size) ≤ maxNumBoard :=
    List.countP_le_length.trans (length_boardSizes.trans_le boards)
  have rounded := isRounded_of_lookup found' (count.trans (by decide))
  rw [countP_boardSizes] at rounded
  exact ⟨_, _, isBestSize_chosen some,
    isRounded_of_lookup found ((Nat.div_le_self _ 4).trans (size.trans fits)), rfl, rounded⟩

end Placement

open Placement

/-- **The best board size.** The first scan finds the boards and how many processes each of them
has. The loop over the sorted sizes chooses the size `boardSize` for which the product with the
number of boards that have so many processes is the largest one of all sizes. -/
theorem board_size_optimal (placement : Placement) {first : ℕ} {rest : List ℕ}
    (sorted : placement.cpuids = first :: rest)
    (boards : placement.boardIds.length ≤ maxNumBoard) :
    ∃ sizes best boardSize, scanBoards [] 0 1 (boardId first) rest = .ok sizes ∧
      sizes.length = (Finset.univ.image placement.board).card ∧
      sizes = placement.boardIds.map (fun board => (placement.onBoard board).length) ∧
      sizes.sum = placement.nprocs ∧
      chooseBoardSize 0 0 (sortBy id sizes) = (best, boardSize) ∧ 1 ≤ boardSize ∧
      best = boardSize * placement.boardsWith boardSize ∧
      (∀ least, 1 ≤ least → least * placement.boardsWith least ≤ best) ∧
      best ≤ placement.nprocs := by
  have some : 0 < placement.nprocs := by
    rw [← length_cpuids, sorted]
    exact Nat.succ_pos _
  have total := @sum_boardSizes placement
  rw [boardSizes, (sortBy_perm id _).sum_eq] at total
  obtain ⟨member, product, most, -⟩ := chosen_optimal some
    (Prod.eta (chooseBoardSize 0 0 placement.boardSizes)).symm
  refine ⟨_, _, _, (scanBoards_cpuids sorted).mpr ⟨boards, rfl⟩, ?_, rfl, total, rfl,
    boardSizes_pos _ member, product, fun least _ => most least, ?_⟩
  · rw [List.length_map, boardIds, Finset.length_sort]
  · rw [show (chooseBoardSize 0 0 (sortBy id _)).1 = _ from product, ← countP_boardSizes,
      Nat.mul_comm, ← sum_boardSizes]
    exact countP_mul_le_sum _ _

theorem boardSizes_fourNodes : fourNodes.boardIds.length ≤ maxNumBoard ∧
    fourNodes.boardSizes = [8, 8] :=
  boardSizes_of_scan (show fourNodes.cpuids = 5 :: _ from rfl) rfl

/-- On two nodes of each of two boards both boards are used with all of their 8 processes. -/
theorem board_size_optimal_four : ∃ sizes best boardSize,
    scanBoards [] 0 1 (boardId 5) (fourNodes.cpuids.drop 1) = .ok sizes ∧
      chooseBoardSize 0 0 (sortBy id sizes) = (best, boardSize) ∧ 16 ≤ best := by
  obtain ⟨boards, found⟩ := boardSizes_fourNodes
  obtain ⟨sizes, best, boardSize, scanned, -, -, -, chosen, -, -, most, -⟩ :=
    board_size_optimal fourNodes (show fourNodes.cpuids = 5 :: _ from rfl) boards
  have eight := most 8 (by decide)
  rw [← countP_boardSizes, found] at eight
  exact ⟨sizes, best, boardSize, scanned, chosen, eight⟩

/-- **The lookups in the table.** Both lookups of a topology find an entry of the table if and only
if some size from 4 on has a larger product with the number of boards that have so many processes
than the sizes below 4. Otherwise the first lookup reads the entry before the table. -/
theorem lookups_inside_iff (placement : Placement) (some : 0 < placement.nprocs)
    (fits : placement.nprocs ≤ maxNprocs) (boards : placement.boardIds.length ≤ maxNumBoard) :
    (∃ entry ∈ factorized, ∃ boardEntry ∈ factorized,
      lookupFactorized ((chooseBoardSize 0 0 placement.boardSizes).2 / 4) = .ok entry ∧
      lookupFactorized (placement.boardSizes.countP fun size => entry.number * 4 ≤ size) =
        .ok boardEntry ∧
      ∀ rank, ∃ topology, placement.getTopology rank = .ok topology ∧
        topology.boardSize = entry.number * 4 ∧ topology.numBoardFactorized = boardEntry) ↔
    ∃ least, 4 ≤ least ∧ ∀ small < 4,
      small * placement.boardsWith small < least * placement.boardsWith least := by
  obtain ⟨member, product, most, less⟩ := chosen_optimal some
    (Prod.eta (chooseBoardSize 0 0 placement.boardSizes)).symm
  refine ⟨?_, ?_⟩
  · rintro ⟨entry, -, -, -, found, -, -⟩
    obtain ⟨listed, fits⟩ := lookupFactorized_mem found
    have positive := factorized_pos entry listed
    refine ⟨(chooseBoardSize 0 0 placement.boardSizes).2, by omega, fun small below => ?_⟩
    rw [← product]
    exact less small (by omega)
  · rintro ⟨least, large, beats⟩
    have best := most least
    rw [product] at best
    have four : 4 ≤ (chooseBoardSize 0 0 placement.boardSizes).2 := by
      by_contra small
      exact absurd best (Nat.not_le.mpr (beats _ (Nat.lt_of_not_le small)))
    obtain ⟨entry, boardEntry, found, -, found', -⟩ := lookups_ok
      (length_boardSizes.trans_le boards) member four ((boardSizes_le _ member).trans fits)
    refine ⟨entry, (lookupFactorized_mem found).1, boardEntry, (lookupFactorized_mem found').1,
      found, found', fun rank => ?_⟩
    exact ⟨_, getTopology_ok fits boards (chooseShape_of_lookups found found') rank, rfl, rfl⟩

/-- With two nodes on each of two boards the lookups find entries, since two times 8 processes
are more than two times 3. -/
theorem lookups_inside_iff_four : ∃ entry ∈ factorized,
    lookupFactorized ((chooseBoardSize 0 0 fourNodes.boardSizes).2 / 4) = .ok entry := by
  obtain ⟨boards, sizes⟩ := boardSizes_fourNodes
  have beaten : ∀ small < 4, small * fourNodes.boardsWith small < 8 * fourNodes.boardsWith 8 := by
    simp only [← countP_boardSizes, sizes]
    decide
  obtain ⟨entry, listed, -, -, found, -⟩ :=
    (lookups_inside_iff fourNodes (by decide) (by decide) boards).mpr ⟨8, by decide, beaten⟩
  exact ⟨entry, listed, found⟩

/-- A job with one process. -/
def oneProcess : Placement where
  nprocs := 1
  cpuid _ := 3
  cgid _ := 0
  cpuid_lt _ := by decide

/-- With one process the board size is 1, and the first lookup reads the entry before the
table. -/
theorem one_process_outside : 0 < oneProcess.nprocs ∧ oneProcess.nprocs ≤ maxNprocs ∧
    oneProcess.boardIds.length ≤ maxNumBoard ∧
    lookupFactorized ((chooseBoardSize 0 0 oneProcess.boardSizes).2 / 4) = .error .outOfBounds ∧
    ∀ rank, oneProcess.getTopology rank = .error .outOfBounds := by
  obtain ⟨boards, sizes⟩ : oneProcess.boardIds.length ≤ maxNumBoard ∧ oneProcess.boardSizes = [1] :=
    boardSizes_of_scan (show oneProcess.cpuids = [3] from rfl) rfl
  refine ⟨by decide, by decide, boards, ?_, fun _ => rfl⟩
  rw [sizes]
  rfl

end Ympi.Shuffle
