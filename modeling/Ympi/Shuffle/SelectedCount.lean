import Ympi.Shuffle.Leftovers

/-! # The number of selected processes

A process is selected if its node is one of those in the first places of a chosen board. So all
processes of a node are selected together, and when the last place of a board cuts a node the
topology has fewer ranks than there are selected processes. What the shape is follows from the
sizes of the boards alone.
-/

namespace Ympi.Shuffle

open Foundation

namespace Placement

variable (placement : Placement)

/-- On no board that takes part the last place and the first one beyond it are on the same
node. -/
def Uncut : Prop :=
  ∀ numBoard boardSize, placement.IsShape numBoard boardSize →
    ∀ board ∈ (placement.boardIds.filter fun board =>
      boardSize ≤ (placement.onBoard board).length).take numBoard,
    ∀ last next, (placement.onBoard board)[boardSize - 1]? = some last →
      (placement.onBoard board)[boardSize]? = some next →
      placement.cpuid last ≠ placement.cpuid next

/-- The processes that set `selected = 1`. -/
def selected : Finset (Fin placement.nprocs) :=
  Finset.univ.filter fun rank => (placement.getTopology rank).toOption.any Topology.selected

variable {placement}

/-- The marked processes of a chosen board are those on the nodes of its first places. -/
theorem card_marked_board {shape : BoardShape} {board : ℕ}
    (chosen : board ∈ placement.chosenBoards shape) :
    ((placement.marked shape).filter fun rank => placement.board rank = board).card =
      (placement.onBoard board).countP fun rank =>
        ((placement.onBoard board).take shape.boardSize).any fun first =>
          placement.cpuid first = placement.cpuid rank := by
  rw [List.countP_eq_length_filter, ← List.toFinset_card_of_nodup ((onBoard_nodup board).filter _)]
  congr 1
  ext rank
  rw [Finset.mem_filter, marked, Finset.mem_filter, List.mem_toFinset, List.mem_filter,
    mem_onBoard, List.any_eq_true, and_iff_right (Finset.mem_univ rank), and_comm]
  refine and_congr_right fun aboard => ⟨?_, ?_⟩
  · rintro ⟨other, ⟨board', -, member⟩, same⟩
    have place := mem_onBoard.mp (List.mem_of_mem_take member)
    rw [← place, Placement.board, same, ← Placement.board, aboard] at member
    exact ⟨other, member, decide_eq_true same⟩
  · rintro ⟨other, member, same⟩
    exact ⟨other, ⟨board, chosen, member⟩, of_decide_eq_true same⟩

/-- A chosen board has as many marked processes as places, unless a node is cut. -/
theorem card_marked_board_iff {shape : BoardShape} (positive : 0 < shape.boardSize) {board : ℕ}
    (chosen : board ∈ placement.chosenBoards shape) :
    ((placement.marked shape).filter fun rank => placement.board rank = board).card =
        shape.boardSize ↔
      ∀ last next, (placement.onBoard board)[shape.boardSize - 1]? = some last →
        (placement.onBoard board)[shape.boardSize]? = some next →
        placement.cpuid last ≠ placement.cpuid next := by
  have large : shape.boardSize ≤ (placement.onBoard board).length :=
    of_decide_eq_true (List.mem_filter.mp (List.mem_of_mem_take chosen)).2
  rw [card_marked_board chosen]
  exact countP_take_iff ((sortBy_pairwise placement.place _).imp place_le_cpuid) positive large

/-- Every marked process is on a chosen board. -/
theorem board_of_marked {shape : BoardShape} {rank : Fin placement.nprocs}
    (marked : placement.Marked shape rank) :
    placement.board rank ∈ placement.chosenBoards shape := by
  obtain ⟨other, ⟨board, chosen, member⟩, same⟩ := marked
  have place := mem_onBoard.mp (List.mem_of_mem_take member)
  rw [Placement.board, ← same, ← Placement.board, place]
  exact chosen

/-- If every chosen board has as many marked processes as places there is one for each rank. -/
theorem card_marked {shape : BoardShape}
    (boards : (placement.chosenBoards shape).length = shape.numBoard)
    (places : ∀ board ∈ placement.chosenBoards shape,
      ((placement.marked shape).filter fun rank => placement.board rank = board).card =
        shape.boardSize) :
    (placement.marked shape).card = shape.numBoard * shape.boardSize := by
  have nodup : (placement.chosenBoards shape).Nodup :=
    (chosenBoards_increasing shape).imp fun before => before.ne
  have inside : ∀ rank ∈ placement.marked shape,
      placement.board rank ∈ (placement.chosenBoards shape).toFinset := by
    intro rank member
    exact List.mem_toFinset.mpr (board_of_marked (Finset.mem_filter.mp member).2)
  rw [Finset.card_eq_sum_card_fiberwise inside,
    Finset.sum_congr rfl fun board member => places board (List.mem_toFinset.mp member),
    Finset.sum_const, List.toFinset_card_of_nodup nodup, boards, smul_eq_mul]

/-- The processes that set `selected = 1` are the marked ones. -/
theorem selected_eq_marked (fits : placement.nprocs ≤ maxNprocs)
    (boards : placement.boardIds.length ≤ maxNumBoard) {shape : BoardShape}
    (chosen : chooseShape placement.boardSizes = .ok shape) :
    placement.selected = placement.marked shape := by
  apply Finset.filter_congr
  intro rank _
  rw [getTopology_ok fits boards chosen]
  exact decide_eq_true_iff

/-- In a job with a process for each core group no node is cut. -/
theorem Launched.uncut (launched : placement.Launched) : placement.Uncut := by
  rintro numBoard boardSize ⟨_, places, -, ⟨⟨positive, -⟩, -⟩, rfl, -⟩ board - last next here there
    same
  have taken : last ∈ (placement.onBoard board).take (places * 4) := by
    refine List.mem_of_getElem? (i := places * 4 - 1) ?_
    rw [List.getElem?_take_of_lt (by omega)]
    exact here
  have member := launched.take_closed (Nat.dvd_mul_left 4 places) taken same.symm
  obtain ⟨index, inside, found⟩ := List.mem_take_iff_getElem.mp member
  have below : index < places * 4 := by omega
  have again : (placement.onBoard board)[index]? = Option.some next :=
    List.getElem?_eq_some_iff.mpr ⟨by omega, found⟩
  have equal := (List.getElem?_inj (by omega) (onBoard_nodup board)).mp (again.trans there.symm)
  omega

end Placement

open Placement

/-- **The number of selected processes.** For a placement whose chosen size is at least 4 the
processes agree on a topology and as many of them are selected as it has places, on every board
that takes part, if and only if there is room for all of them in the list and no node is cut. -/
theorem selected_count_iff (placement : Placement) (some : 0 < placement.nprocs)
    (boards : placement.boardIds.length ≤ maxNumBoard)
    (large : 4 ≤ (chooseBoardSize 0 0 placement.boardSizes).2) :
    (∃ shape : BoardShape, (∀ rank, ∃ topology, placement.getTopology rank = .ok topology ∧
        topology.toBoardShape = shape) ∧
      placement.selected.card = shape.numBoard * shape.boardSize ∧
      (placement.chosenBoards shape).length = shape.numBoard ∧
      ∀ board ∈ placement.chosenBoards shape,
        (placement.selected.filter fun rank => placement.board rank = board).card =
          shape.boardSize) ↔
    placement.nprocs ≤ maxNprocs ∧ placement.Uncut := by
  refine ⟨?_, ?_⟩
  · rintro ⟨shape, agreed, -, -, places⟩
    obtain ⟨topology, found, rfl⟩ := agreed ⟨0, some⟩
    obtain ⟨fits, chosen, -⟩ := getTopology_eq_ok found
    refine ⟨fits, fun numBoard boardSize given board member => ?_⟩
    obtain ⟨rfl, rfl⟩ := given.unique (isShape_of_chosen some fits boards chosen)
    have full := places board member
    rw [selected_eq_marked fits boards chosen] at full
    have positive := BoardShape.boardSize_pos (chooseShape_eq_ok chosen).1
    exact (card_marked_board_iff positive member).mp full
  · rintro ⟨fits, uncut⟩
    have member := chosen_mem (boardSizes_ne_nil some) boardSizes_pos
    obtain ⟨shape, chosen, -, positive, -, -⟩ := chooseShape_ok (length_boardSizes.trans_le boards)
      member large ((boardSizes_le _ member).trans fits)
    have count := length_chosenBoards chosen
    have places : ∀ board ∈ placement.chosenBoards shape,
        ((placement.marked shape).filter fun rank => placement.board rank = board).card =
          shape.boardSize := fun board listed =>
      (card_marked_board_iff positive listed).mpr
        (uncut _ _ (isShape_of_chosen some fits boards chosen) board listed)
    rw [selected_eq_marked fits boards chosen]
    exact ⟨shape, fun rank => ⟨_, getTopology_ok fits boards chosen rank, rfl⟩,
      card_marked count places, count, places⟩

/-- On two nodes of each of two boards as many processes are selected as the topology has
ranks. -/
theorem selected_count_iff_four : ∃ shape : BoardShape,
    fourNodes.selected.card = shape.numBoard * shape.boardSize := by
  obtain ⟨boards, sizes⟩ := boardSizes_fourNodes
  have launched : fourNodes.Launched := launched_onNodes _ (by decide) (by decide) (by decide)
  obtain ⟨shape, -, count, -, -⟩ := (selected_count_iff fourNodes (by decide) boards
    (by rw [sizes]; decide)).mpr ⟨by decide, launched.uncut⟩
  exact ⟨shape, count⟩

/-- Two nodes of a board with three processes each. -/
def threesOnNodes : Placement where
  nprocs := 6
  cpuid rank := rank.val / 3
  cgid rank := rank.val % 3
  cpuid_lt _ := by omega

/-- With three processes on each of two nodes of a board the topology has one board of 4
places, the last of which cuts the second node: all 6 processes are selected. -/
theorem cut_node_selected : threesOnNodes.boardIds.length ≤ maxNumBoard ∧
    4 ≤ (chooseBoardSize 0 0 threesOnNodes.boardSizes).2 ∧
    (∀ rank, ∃ topology, threesOnNodes.getTopology rank = .ok topology ∧
      topology.numBoard = 1 ∧ topology.boardSize = 4) ∧
    threesOnNodes.selected.card = 6 := by
  obtain ⟨boards, sizes⟩ : threesOnNodes.boardIds.length ≤ maxNumBoard ∧
      threesOnNodes.boardSizes = [6] :=
    boardSizes_of_scan (show threesOnNodes.cpuids = 0 :: _ from rfl) rfl
  refine ⟨boards, by rw [sizes]; decide, fun rank => ⟨_, rfl, rfl, rfl⟩, rfl⟩

end Ympi.Shuffle
