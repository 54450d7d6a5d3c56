import Ympi.Shuffle.BoardSizes

/-! # The blocks of the second scan

The second scan marks the beginning of each board that is large enough until it has found
enough of them, and once more after the loop for the last board. Here it is said which blocks
of the sorted list it marks. All of them are inside one board, and there are as many as the
shape says, so the error exit is not taken.
-/

namespace Ympi.Shuffle

open Foundation

/-- The second scan with the beginnings of the blocks that it marks: `begin` and the blocks
after it. -/
def scanBlocks (boardSize targetNumBoard begin i lastBoardId : ℕ) (blocks : List ℕ) :
    List ℕ → ℕ × List ℕ
  | [] => (begin, blocks)
  | cpuid :: rest =>
      if boardId cpuid ≠ lastBoardId then
        if boardSize ≤ i - begin then
          if blocks.length + 1 = targetNumBoard then (begin, blocks ++ [begin])
          else scanBlocks boardSize targetNumBoard i (i + 1) (boardId cpuid) (blocks ++ [begin]) rest
        else scanBlocks boardSize targetNumBoard i (i + 1) (boardId cpuid) blocks rest
      else scanBlocks boardSize targetNumBoard begin (i + 1) lastBoardId blocks rest

/-- After the loop the last board is left. -/
def finishBlocks (length boardSize targetNumBoard : ℕ) : ℕ × List ℕ → List ℕ
  | (begin, blocks) =>
      if blocks.length < targetNumBoard ∧ boardSize ≤ length - begin then blocks ++ [begin]
      else blocks

/-- The beginnings of the blocks that are marked in a list. -/
def markedBlocks (cpuidList : List ℕ) (boardSize targetNumBoard : ℕ) : List ℕ :=
  match cpuidList with
  | [] => []
  | first :: rest =>
      finishBlocks cpuidList.length boardSize targetNumBoard
        (scanBlocks boardSize targetNumBoard 0 1 (boardId first) [] rest)

/-- The block is inside the list and on one board. -/
def InBoard (cpuidList : List ℕ) (boardSize begin : ℕ) : Prop :=
  begin + boardSize ≤ cpuidList.length ∧
    ∃ board, ∀ cpuid ∈ (cpuidList.drop begin).take boardSize, boardId cpuid = board

section Blocks

variable {boardSize targetNumBoard : ℕ}

/-- The scan counts the blocks, and a process is selected if one of them has its node. -/
theorem scanSelected_blocks (list : List ℕ) (myCpuid begin i last : ℕ) (blocks rest : List ℕ) :
    scanSelected list myCpuid boardSize targetNumBoard begin i last blocks.length
        (blocks.any fun block => marks list myCpuid block boardSize) rest =
      ((scanBlocks boardSize targetNumBoard begin i last blocks rest).1,
        (scanBlocks boardSize targetNumBoard begin i last blocks rest).2.length,
        (scanBlocks boardSize targetNumBoard begin i last blocks rest).2.any fun block =>
          marks list myCpuid block boardSize) := by
  induction rest generalizing begin i last blocks with
  | nil => rfl
  | cons cpuid rest ih =>
      have added := ih i (i + 1) (boardId cpuid) (blocks ++ [begin])
      simp only [List.length_append, List.length_singleton, List.any_append, List.any_cons,
        List.any_nil, Bool.or_false] at added
      rw [scanSelected, scanBlocks]
      by_cases apart : boardId cpuid ≠ last
      · rw [if_pos apart, if_pos apart]
        by_cases large : boardSize ≤ i - begin
        · rw [if_pos large, if_pos large]
          by_cases full : blocks.length + 1 = targetNumBoard
          · simp [full]
          · rw [if_neg full, if_neg full]
            exact added
        · rw [if_neg large, if_neg large]
          exact ih i (i + 1) (boardId cpuid) blocks
      · rw [if_neg apart, if_neg apart]
        exact ih begin (i + 1) last blocks

theorem finishSelect_blocks (list : List ℕ) (myCpuid : ℕ) (result : ℕ × List ℕ) :
    finishSelect list myCpuid boardSize targetNumBoard (result.1, result.2.length,
        result.2.any fun block => marks list myCpuid block boardSize) =
      ((finishBlocks list.length boardSize targetNumBoard result).length,
        (finishBlocks list.length boardSize targetNumBoard result).any fun block =>
          marks list myCpuid block boardSize) := by
  obtain ⟨begin, blocks⟩ := result
  rw [finishSelect, finishBlocks]
  split
  · simp
  · rfl

/-- The second scan in terms of its blocks. -/
theorem secondScan_blocks (myCpuid first : ℕ) (rest : List ℕ) :
    finishSelect (first :: rest) myCpuid boardSize targetNumBoard
        (scanSelected (first :: rest) myCpuid boardSize targetNumBoard 0 1 (boardId first) 0
          false rest) =
      ((markedBlocks (first :: rest) boardSize targetNumBoard).length,
        (markedBlocks (first :: rest) boardSize targetNumBoard).any fun block =>
          marks (first :: rest) myCpuid block boardSize) := by
  have scanned := @scanSelected_blocks boardSize targetNumBoard (first :: rest) myCpuid 0 1
    (boardId first) [] rest
  rw [List.length_nil, List.any_nil] at scanned
  rw [scanned, finishSelect_blocks]
  rfl

/-- A block at the beginning of a long run is on its board. -/
theorem inBoard_run {front run rest : List ℕ} {board : ℕ} (long : boardSize ≤ run.length)
    (uniform : ∀ cpuid ∈ run, boardId cpuid = board) :
    InBoard (front ++ run ++ rest) boardSize front.length := by
  refine ⟨?_, board, fun cpuid member => ?_⟩
  · simp only [List.length_append]
    omega
  · rw [List.append_assoc, List.drop_left, List.take_append_of_le_length long] at member
    exact uniform cpuid (List.mem_of_mem_take member)

/-- A block is added at the beginning of a long run. -/
theorem inBoard_concat {list front run rest blocks : List ℕ} {board : ℕ}
    (whole : list = front ++ run ++ rest) (uniform : ∀ cpuid ∈ run, boardId cpuid = board)
    (inside : ∀ block ∈ blocks, InBoard list boardSize block) (long : boardSize ≤ run.length) :
    ∀ block ∈ blocks ++ [front.length], InBoard list boardSize block := by
  intro block member
  rcases List.mem_append.mp member with before | same
  · exact inside block before
  · rw [List.mem_singleton.mp same, whole]
    exact inBoard_run long uniform

/-- If the scan is at a run it adds only blocks that are on one board. -/
theorem scanBlocks_inBoard {list : List ℕ} (front run rest : List ℕ) (last : ℕ) (blocks : List ℕ)
    (whole : list = front ++ run ++ rest) (uniform : ∀ cpuid ∈ run, boardId cpuid = last)
    (inside : ∀ block ∈ blocks, InBoard list boardSize block) :
    ∀ block ∈ finishBlocks list.length boardSize targetNumBoard
      (scanBlocks boardSize targetNumBoard front.length (front.length + run.length) last blocks rest),
      InBoard list boardSize block := by
  induction rest generalizing front run last blocks with
  | nil =>
      have length : list.length - front.length = run.length := by
        rw [whole, List.append_nil, List.length_append, Nat.add_sub_cancel_left]
      rw [scanBlocks, finishBlocks, length]
      split
      next both => exact inBoard_concat whole uniform inside both.2
      next => exact inside
  | cons cpuid rest ih =>
      have shifted : list = (front ++ run) ++ [cpuid] ++ rest := by
        rw [whole]
        simp
      have extended : list = front ++ (run ++ [cpuid]) ++ rest := by
        rw [whole]
        simp
      have next (blocks : List ℕ) (inside : ∀ block ∈ blocks, InBoard list boardSize block) :=
        ih (front ++ run) [cpuid] (boardId cpuid) blocks shifted
          (fun other member => by rw [List.mem_singleton.mp member]) inside
      simp only [List.length_append, List.length_singleton] at next
      rw [scanBlocks, Nat.add_sub_cancel_left]
      by_cases apart : boardId cpuid ≠ last
      · rw [if_pos apart]
        by_cases long : boardSize ≤ run.length
        · rw [if_pos long]
          by_cases full : blocks.length + 1 = targetNumBoard
          · have many : ¬ (blocks ++ [front.length]).length < targetNumBoard := by
              rw [List.length_append, List.length_singleton]
              omega
            rw [if_pos full, finishBlocks, if_neg fun both => many both.1]
            exact inBoard_concat whole uniform inside long
          · rw [if_neg full]
            exact next _ (inBoard_concat whole uniform inside long)
        · rw [if_neg long]
          exact next blocks inside
      · have same : boardId cpuid = last := not_not.mp apart
        rw [if_neg apart]
        have later := ih front (run ++ [cpuid]) last blocks extended
          (fun other member => by
            rcases List.mem_append.mp member with before | here
            · exact uniform other before
            · rw [List.mem_singleton.mp here]
              exact same) inside
        rw [List.length_append] at later
        exact later

theorem markedBlocks_inBoard (list : List ℕ) :
    ∀ block ∈ markedBlocks list boardSize targetNumBoard, InBoard list boardSize block := by
  cases list with
  | nil =>
      intro block member
      cases member
  | cons first rest =>
      exact scanBlocks_inBoard [] [first] rest (boardId first) [] rfl
        (fun other member => by rw [List.mem_singleton.mp member])
        (fun block member => by cases member)

end Blocks

open Placement

/-- **The selection scan.** If the chosen size is at least 4 the second scan finds as many boards
as it looks for, so no process leaves by the error exit. Every block that it marks is on
one board, and there are processes for all places of the boards. -/
theorem selection_scan_complete (placement : Placement) {first : ℕ} {rest : List ℕ}
    (sorted : placement.cpuids = first :: rest) (fits : placement.nprocs ≤ maxNprocs)
    (boards : placement.boardIds.length ≤ maxNumBoard)
    (large : 4 ≤ (chooseBoardSize 0 0 placement.boardSizes).2) :
    ∃ shape, chooseShape placement.boardSizes = .ok shape ∧
      shape.numBoard * shape.boardSize ≤ placement.nprocs ∧
      (markedBlocks placement.cpuids shape.boardSize shape.numBoard).length = shape.numBoard ∧
      (∀ block ∈ markedBlocks placement.cpuids shape.boardSize shape.numBoard,
        InBoard placement.cpuids shape.boardSize block) ∧
      ∀ rank, finishSelect placement.cpuids (placement.cpuid rank) shape.boardSize shape.numBoard
          (scanSelected placement.cpuids (placement.cpuid rank) shape.boardSize shape.numBoard 0 1
            (boardId first) 0 false rest) =
          (shape.numBoard, (markedBlocks placement.cpuids shape.boardSize shape.numBoard).any
            fun block => marks placement.cpuids (placement.cpuid rank) block shape.boardSize) ∧
        ∃ topology, placement.getTopology rank = .ok topology ∧ topology.toBoardShape = shape := by
  have some : 0 < placement.nprocs := by
    rw [← length_cpuids, sorted]
    exact Nat.succ_pos _
  have member := chosen_mem (boardSizes_ne_nil some) boardSizes_pos
  obtain ⟨shape, chosen, -, -, positive, -⟩ := chooseShape_ok (length_boardSizes.trans_le boards)
    member large ((boardSizes_le _ member).trans fits)
  have enough := largeRuns_enough chosen
  rw [sorted] at enough
  have full : (markedBlocks placement.cpuids shape.boardSize shape.numBoard).length =
      shape.numBoard := by
    rw [sorted]
    exact congrArg Prod.fst
      ((secondScan_blocks 0 first rest).symm.trans (secondScan_eq positive enough))
  refine ⟨shape, chosen, numRanks_le_nprocs chosen, full, markedBlocks_inBoard _, fun rank => ?_⟩
  refine ⟨?_, _, getTopology_ok fits boards chosen rank, rfl⟩
  rw [sorted, secondScan_blocks, ← sorted, full]

/-- On two nodes of each of two boards the scan marks two blocks, each of them on one board. -/
theorem selection_scan_complete_four : ∃ shape, chooseShape fourNodes.boardSizes = .ok shape ∧
    (markedBlocks fourNodes.cpuids shape.boardSize shape.numBoard).length = shape.numBoard ∧
    ∀ block ∈ markedBlocks fourNodes.cpuids shape.boardSize shape.numBoard,
      InBoard fourNodes.cpuids shape.boardSize block := by
  obtain ⟨boards, sizes⟩ := boardSizes_fourNodes
  obtain ⟨shape, chosen, -, count, inside, -⟩ := selection_scan_complete fourNodes
    (show fourNodes.cpuids = 5 :: _ from rfl) (by decide) boards (by rw [sizes]; decide)
  exact ⟨shape, chosen, count, inside⟩

end Ympi.Shuffle
