import Ympi.Foundation.Thresholds
import Ympi.Shuffle.Selection
import Mathlib.Data.Finset.Sort

/-! # Complete boards

When the job has a process for each of the four core groups of its nodes, the selected
processes are the first ones of the chosen boards, as many as the board size says, and their
communicator holds one board after the other.
-/

namespace Ympi.Shuffle

open Foundation

namespace Placement

variable (placement : Placement)

/-- The board of a process. -/
def board (rank : Fin placement.nprocs) : ℕ :=
  boardId (placement.cpuid rank)

/-- The place of a process among those of its board: by its node, then its core group. -/
def place (rank : Fin placement.nprocs) : ℕ ×ₗ ℕ :=
  toLex (placement.cpuid rank, placement.cgid rank)

/-- The processes of a board in the order of their places. -/
def onBoard (board : ℕ) : List (Fin placement.nprocs) :=
  sortBy placement.place ((List.finRange placement.nprocs).filter fun rank =>
    placement.board rank = board)

/-- The boards with at least one process, in increasing order. -/
def boardIds : List ℕ :=
  (Finset.univ.image placement.board).sort (· ≤ ·)

/-- The sizes of the boards, in increasing order. -/
def boardSizes : List ℕ :=
  sortBy id (placement.boardIds.map fun board => (placement.onBoard board).length)

/-- The boards that take part: the first ones with enough processes. -/
def chosenBoards (shape : BoardShape) : List ℕ :=
  (placement.boardIds.filter fun board => shape.boardSize ≤ (placement.onBoard board).length).take
    shape.numBoard

/-- A job with up to `MAX_NPROCS` processes on up to `MAX_NUM_BOARD` boards that has one
process for each core group of each of its nodes. -/
structure Launched : Prop where
  some : 0 < placement.nprocs
  fits : placement.nprocs ≤ maxNprocs
  boards : placement.boardIds.length ≤ maxNumBoard
  cgid_lt : ∀ rank, placement.cgid rank < 4
  once : ∀ first second, placement.cpuid first = placement.cpuid second →
    placement.cgid first = placement.cgid second → first = second
  whole : ∀ rank, ∀ cgid < 4, ∃ other, placement.cpuid other = placement.cpuid rank ∧
    placement.cgid other = cgid

/-- The communicator consists of the first processes of the chosen boards, board by
board. -/
structure CompleteBoards (shape : BoardShape) (comm : List (Fin placement.nprocs)) : Prop where
  length : comm.length = shape.numBoard * shape.boardSize
  chosen : (placement.chosenBoards shape).length = shape.numBoard
  block : ∀ index board, (placement.chosenBoards shape)[index]? = some board →
    shape.boardSize ≤ (placement.onBoard board).length ∧
      (comm.drop (index * shape.boardSize)).take shape.boardSize =
        (placement.onBoard board).take shape.boardSize
  together : ∀ first second, ∀ rank other, comm[first]? = some rank → comm[second]? = some other →
    (first / shape.boardSize = second / shape.boardSize ↔
      placement.board rank = placement.board other)

/-- The sorted node numbers. -/
def cpuids : List ℕ :=
  sortBy id ((List.finRange placement.nprocs).map placement.cpuid)

variable {placement}

theorem mem_onBoard {board : ℕ} {rank : Fin placement.nprocs} :
    rank ∈ placement.onBoard board ↔ placement.board rank = board := by
  rw [onBoard, mem_sortBy, List.mem_filter]
  simp

theorem place_le_cpuid {first second : Fin placement.nprocs}
    (before : placement.place first ≤ placement.place second) :
    placement.cpuid first ≤ placement.cpuid second := by
  rcases Prod.Lex.toLex_le_toLex.mp before with below | same
  · exact below.le
  · exact same.1.le

/-- The node numbers on a board, sorted, are those of its processes in order. -/
theorem cpuids_filter (board : ℕ) :
    (placement.cpuids.filter fun cpuid => boardId cpuid = board) =
      (placement.onBoard board).map placement.cpuid := by
  have sorted : (placement.cpuids.filter fun cpuid => boardId cpuid = board).Pairwise (· ≤ ·) :=
    (sortBy_pairwise id _).filter _
  have ordered : ((placement.onBoard board).map placement.cpuid).Pairwise (· ≤ ·) := by
    rw [List.pairwise_map]
    exact (sortBy_pairwise placement.place _).imp place_le_cpuid
  apply List.Perm.eq_of_pairwise (fun _ _ _ _ => le_antisymm) sorted ordered
  have gathered := (sortBy_perm id ((List.finRange placement.nprocs).map placement.cpuid)).filter
    fun cpuid => boardId cpuid = board
  rw [List.filter_map] at gathered
  exact gathered.trans ((sortBy_perm placement.place _).symm.map placement.cpuid)

theorem boardIds_increasing : placement.boardIds.Pairwise (· < ·) :=
  (Finset.sortedLT_sort _).pairwise

theorem mem_boardIds {value : ℕ} :
    value ∈ placement.boardIds ↔ ∃ rank, placement.board rank = value := by
  simp [boardIds]

/-- The boards are the keys of the sorted node numbers. -/
theorem eq_boardIds {keys : List ℕ} (increasing : keys.Pairwise (· < ·))
    (members : ∀ value, value ∈ keys ↔ ∃ cpuid ∈ placement.cpuids, boardId cpuid = value) :
    keys = placement.boardIds := by
  apply increasing.eq_of_mem_iff boardIds_increasing
  intro value
  rw [members, mem_boardIds]
  simp [cpuids, mem_sortBy, board]

/-- **Runs of the node numbers.** They are the boards in turn. -/
theorem runs_cpuids : runs boardId placement.cpuids =
    placement.boardIds.map fun board => (placement.onBoard board).map placement.cpuid := by
  have sorted : placement.cpuids.Pairwise fun first second => boardId first ≤ boardId second :=
    (sortBy_pairwise id _).imp fun below => Nat.div_le_div_right below
  obtain ⟨keys, increasing, members, split⟩ := runs_eq sorted
  rw [split, eq_boardIds increasing members]
  simp only [cpuids_filter]

/-- The processes of a board are in strict order. -/
theorem Launched.onBoard_increasing (launched : placement.Launched) (board : ℕ) :
    (placement.onBoard board).Pairwise fun first second =>
      placement.place first < placement.place second := by
  apply sortBy_increasing
  · intro first _ second _ same
    obtain ⟨cpuid, cgid⟩ := Prod.mk.inj (toLex.injective same)
    exact launched.once first second cpuid cgid
  · exact (List.nodup_finRange _).filter _

theorem onBoard_nodup (board : ℕ) : (placement.onBoard board).Nodup :=
  (sortBy_perm _ _).nodup_iff.mpr ((List.nodup_finRange _).filter _)

/-- A node has four processes. -/
theorem Launched.node_length (launched : placement.Launched) (rank : Fin placement.nprocs) :
    ((placement.onBoard (placement.board rank)).filter fun other =>
      placement.cpuid other = placement.cpuid rank).length = 4 := by
  have groups : (((placement.onBoard (placement.board rank)).filter fun other =>
      placement.cpuid other = placement.cpuid rank).map placement.cgid).Perm (List.range 4) := by
    rw [List.perm_ext_iff_of_nodup ?_ List.nodup_range]
    · intro cgid
      simp only [List.mem_map, List.mem_filter, mem_onBoard, List.mem_range, decide_eq_true_eq]
      refine ⟨?_, ?_⟩
      · rintro ⟨other, -, rfl⟩
        exact launched.cgid_lt other
      · intro below
        obtain ⟨other, same, group⟩ := launched.whole rank cgid below
        exact ⟨other, ⟨by rw [board, board, same], same⟩, group⟩
    · apply List.Nodup.map_on ?_ ((onBoard_nodup _).filter _)
      intro first here second there equal
      have left := of_decide_eq_true (List.mem_filter.mp here).2
      have right := of_decide_eq_true (List.mem_filter.mp there).2
      exact launched.once first second (left.trans right.symm) equal
  have length := groups.length_eq
  rwa [List.length_map, List.length_range] at length

/-- A board is made of its nodes with four processes each. -/
theorem Launched.onBoard_nodes (launched : placement.Launched) (board : ℕ) :
    ∃ nodes : List ℕ, placement.onBoard board = (nodes.map fun node =>
        (placement.onBoard board).filter fun rank => placement.cpuid rank = node).flatten ∧
      ∀ piece ∈ nodes.map fun node => (placement.onBoard board).filter fun rank =>
        placement.cpuid rank = node, piece.length = 4 := by
  have sorted : (placement.onBoard board).Pairwise fun first second =>
      placement.cpuid first ≤ placement.cpuid second :=
    (sortBy_pairwise placement.place _).imp place_le_cpuid
  obtain ⟨nodes, -, members, split⟩ := runs_eq sorted
  refine ⟨nodes, ?_, ?_⟩
  · rw [← split, runs_flatten]
  · intro piece listed
    obtain ⟨node, member, rfl⟩ := List.mem_map.mp listed
    obtain ⟨rank, here, rfl⟩ := (members node).mp member
    rw [← mem_onBoard.mp here]
    exact launched.node_length rank

/-- The number of processes of a board is a multiple of four. -/
theorem Launched.onBoard_length (launched : placement.Launched) (board : ℕ) :
    4 ∣ (placement.onBoard board).length := by
  obtain ⟨nodes, whole, uniform⟩ := launched.onBoard_nodes board
  have length := length_flatten_uniform uniform
  rw [← whole] at length
  rw [length]
  exact Nat.dvd_mul_left _ _

/-- A multiple of four processes of a board has the nodes as a whole. -/
theorem Launched.take_closed (launched : placement.Launched) {board size : ℕ}
    (fours : 4 ∣ size) {rank other : Fin placement.nprocs}
    (member : other ∈ (placement.onBoard board).take size)
    (same : placement.cpuid rank = placement.cpuid other) :
    rank ∈ (placement.onBoard board).take size := by
  obtain ⟨nodes, whole, uniform⟩ := launched.onBoard_nodes board
  obtain ⟨count, rfl⟩ := fours
  have taken : (placement.onBoard board).take (4 * count) =
      ((nodes.take count).map fun node => (placement.onBoard board).filter fun rank =>
        placement.cpuid rank = node).flatten := by
    rw [List.map_take, ← flatten_take_mul uniform, ← whole, Nat.mul_comm]
  rw [taken, List.mem_flatten] at member ⊢
  obtain ⟨piece, listed, here⟩ := member
  obtain ⟨node, chosen, rfl⟩ := List.mem_map.mp listed
  obtain ⟨onBoard, node_eq⟩ := List.mem_filter.mp here
  have aboard : placement.board rank = board := by
    rw [← mem_onBoard.mp onBoard, Placement.board, Placement.board, same]
  refine ⟨_, listed, List.mem_filter.mpr ⟨mem_onBoard.mpr aboard, ?_⟩⟩
  rw [same]
  exact node_eq

/-- The process is one of the first of a chosen board. -/
def Chosen (placement : Placement) (shape : BoardShape) (rank : Fin placement.nprocs) : Prop :=
  ∃ board ∈ placement.chosenBoards shape, rank ∈ (placement.onBoard board).take shape.boardSize

instance (shape : BoardShape) (rank : Fin placement.nprocs) :
    Decidable (placement.Chosen shape rank) :=
  inferInstanceAs (Decidable (∃ board ∈ placement.chosenBoards shape,
    rank ∈ (placement.onBoard board).take shape.boardSize))

/-- The process is on the node of one of the first of a chosen board. -/
def Marked (placement : Placement) (shape : BoardShape) (rank : Fin placement.nprocs) : Prop :=
  ∃ other, placement.Chosen shape other ∧ placement.cpuid other = placement.cpuid rank

instance (shape : BoardShape) (rank : Fin placement.nprocs) :
    Decidable (placement.Marked shape rank) :=
  inferInstanceAs (Decidable (∃ other, placement.Chosen shape other ∧
    placement.cpuid other = placement.cpuid rank))

/-- The large runs of the node numbers are the chosen boards. -/
theorem largeRuns_cpuids (shape : BoardShape) :
    largeRuns shape.boardSize shape.numBoard (runs boardId placement.cpuids) =
      (placement.chosenBoards shape).map fun board =>
        (placement.onBoard board).map placement.cpuid := by
  rw [runs_cpuids, largeRuns, List.filter_map, ← List.map_take, chosenBoards]
  congr 2
  apply List.filter_congr
  intro board _
  simp

/-- The second scan looks for the node of a process in the chosen boards. -/
theorem any_largeRuns_cpuids (shape : BoardShape) (rank : Fin placement.nprocs) :
    ((largeRuns shape.boardSize shape.numBoard (runs boardId placement.cpuids)).any fun run =>
      (run.take shape.boardSize).contains (placement.cpuid rank)) =
      decide (placement.Marked shape rank) := by
  rw [largeRuns_cpuids, Bool.eq_iff_iff, List.any_eq_true, decide_eq_true_iff]
  refine ⟨?_, ?_⟩
  · rintro ⟨run, listed, marked⟩
    obtain ⟨board, chosen, rfl⟩ := List.mem_map.mp listed
    rw [List.contains_iff_mem, ← List.map_take, List.mem_map] at marked
    obtain ⟨other, member, same⟩ := marked
    exact ⟨other, ⟨board, chosen, member⟩, same⟩
  · rintro ⟨other, ⟨board, chosen, member⟩, same⟩
    refine ⟨_, List.mem_map_of_mem chosen, ?_⟩
    rw [List.contains_iff_mem, ← List.map_take, ← same]
    exact List.mem_map_of_mem member

/-- The marked processes are the first ones of the chosen boards. -/
theorem Launched.marked_iff (launched : placement.Launched) {shape : BoardShape}
    (fours : 4 ∣ shape.boardSize) (rank : Fin placement.nprocs) :
    placement.Marked shape rank ↔ placement.Chosen shape rank := by
  refine ⟨?_, fun chosen => ⟨rank, chosen, rfl⟩⟩
  rintro ⟨other, ⟨board, chosen, member⟩, same⟩
  exact ⟨board, chosen, launched.take_closed fours member same.symm⟩

theorem length_boardSizes : placement.boardSizes.length = placement.boardIds.length := by
  rw [boardSizes, length_sortBy, List.length_map]

theorem boardSizes_ne_nil (some : 0 < placement.nprocs) : placement.boardSizes ≠ [] := by
  rw [← List.length_pos_iff, length_boardSizes]
  exact List.length_pos_of_mem (mem_boardIds.mpr ⟨⟨0, some⟩, rfl⟩)

theorem length_cpuids : placement.cpuids.length = placement.nprocs := by
  rw [cpuids, length_sortBy, List.length_map, List.length_finRange]

theorem length_runs_cpuids : (runs boardId placement.cpuids).map List.length =
    placement.boardIds.map fun board => (placement.onBoard board).length := by
  rw [runs_cpuids, List.map_map]
  apply List.map_congr_left
  intro board _
  simp

/-- The boards have all processes. -/
theorem sum_boardSizes : placement.boardSizes.sum = placement.nprocs := by
  rw [boardSizes, (sortBy_perm id _).sum_eq, ← length_runs_cpuids, ← List.length_flatten,
    runs_flatten, length_cpuids]

/-- The first scan collects the sizes of the boards. -/
theorem scanBoards_cpuids {first : ℕ} {rest : List ℕ} (whole : placement.cpuids = first :: rest)
    {scanned : List ℕ} : scanBoards [] 0 1 (boardId first) rest = .ok scanned ↔
      placement.boardIds.length ≤ maxNumBoard ∧
        scanned = placement.boardIds.map fun board => (placement.onBoard board).length := by
  have listed : runsFrom boardId [first] (boardId first) rest = runs boardId placement.cpuids := by
    rw [whole]
    rfl
  have count := congrArg List.length (@length_runs_cpuids placement)
  rw [List.length_map, List.length_map] at count
  refine ⟨?_, ?_⟩
  · intro done
    have both := @scanBoards_eq_ok [] scanned 0 (boardId first) [first] rest done
    rwa [listed, length_runs_cpuids, count, List.length_nil, Nat.zero_add, List.nil_append] at both
  · rintro ⟨boards, rfl⟩
    have done := scanBoards_eq [] 0 (boardId first) [first] rest
    rw [listed, length_runs_cpuids, count, List.length_nil, Nat.zero_add, List.nil_append] at done
    exact done boards

/-- There are processes for all ranks of the topology. -/
theorem numRanks_le_nprocs {shape : BoardShape}
    (chosen : chooseShape placement.boardSizes = .ok shape) :
    shape.numBoard * shape.boardSize ≤ placement.nprocs :=
  calc shape.numBoard * shape.boardSize
      ≤ (placement.boardSizes.countP fun size => shape.boardSize ≤ size) * shape.boardSize :=
        Nat.mul_le_mul_right shape.boardSize (chooseShape_eq_ok chosen).2
    _ ≤ placement.boardSizes.sum := countP_mul_le_sum shape.boardSize placement.boardSizes
    _ = placement.nprocs := sum_boardSizes

/-- There are enough large runs for the shape. -/
theorem largeRuns_enough {shape : BoardShape}
    (chosen : chooseShape placement.boardSizes = .ok shape) :
    shape.numBoard ≤
      (runs boardId placement.cpuids).countP fun run => shape.boardSize ≤ run.length := by
  have enough := (chooseShape_eq_ok chosen).2
  rw [boardSizes, (sortBy_perm id _).countP_eq, ← length_runs_cpuids, List.countP_map] at enough
  exact enough

/-- What the processes find if the arrays have room for all of them and their boards. -/
theorem getTopology_ok (fits : placement.nprocs ≤ maxNprocs)
    (boards : placement.boardIds.length ≤ maxNumBoard) {shape : BoardShape}
    (chosen : chooseShape placement.boardSizes = .ok shape) (rank : Fin placement.nprocs) :
    placement.getTopology rank = .ok { shape with
      cpuid := placement.cpuid rank
      selected := decide (placement.Marked shape rank) } := by
  have some : placement.cpuids ≠ [] := by
    apply List.ne_nil_of_length_pos
    rw [length_cpuids]
    exact rank.pos
  obtain ⟨factored, -⟩ := chooseShape_eq_ok chosen
  have target : 0 < shape.numBoard := by
    rw [factored.numBoard]
    exact shape.boards.product_pos
  have selected := @select_ok shape.boardSize shape.numBoard (placement.cpuid rank) _ some target
    (largeRuns_enough chosen)
  rw [any_largeRuns_cpuids] at selected
  have listed : placement.cpuidList = .ok placement.cpuids := if_pos fits
  obtain ⟨first, rest, whole⟩ := List.exists_cons_of_ne_nil some
  have scanned := (scanBoards_cpuids whole).mpr ⟨boards, rfl⟩
  rw [boardSizes] at chosen
  rw [whole] at selected
  rw [getTopology, listed, whole]
  simp only [bind, Except.bind, scanned, chosen, selected]
  rfl

/-- A process that returns has found the shape of the boards. -/
theorem exists_of_getTopology {rank : Fin placement.nprocs} {topology : Topology}
    (found : placement.getTopology rank = .ok topology) :
    placement.nprocs ≤ maxNprocs ∧ placement.boardIds.length ≤ maxNumBoard ∧
      chooseShape placement.boardSizes = .ok topology.toBoardShape := by
  by_cases fits : placement.nprocs ≤ maxNprocs
  · have listed : placement.cpuidList = .ok placement.cpuids := if_pos fits
    rw [getTopology, listed] at found
    cases whole : placement.cpuids with
    | nil =>
        rw [whole] at found
        cases found
    | cons first rest =>
        rw [whole] at found
        obtain ⟨_, given, found⟩ := exists_of_bind_ok found
        cases given
        obtain ⟨sizes, scanned, found⟩ := exists_of_bind_ok found
        obtain ⟨shape, chosen, found⟩ := exists_of_bind_ok found
        obtain ⟨selected, _, found⟩ := exists_of_bind_ok found
        cases found
        obtain ⟨boards, rfl⟩ := (scanBoards_cpuids whole).mp scanned
        exact ⟨fits, boards, chosen⟩
  · have full : placement.cpuidList = .error .outOfBounds := if_neg fits
    rw [getTopology, full] at found
    cases found

/-- What a process has found that returns. -/
theorem getTopology_eq_ok {rank : Fin placement.nprocs} {topology : Topology}
    (found : placement.getTopology rank = .ok topology) :
    placement.nprocs ≤ maxNprocs ∧ chooseShape placement.boardSizes = .ok topology.toBoardShape ∧
      topology.selected = decide (placement.Marked topology.toBoardShape rank) := by
  obtain ⟨fits, boards, chosen⟩ := exists_of_getTopology found
  rw [getTopology_ok fits boards chosen] at found
  refine ⟨fits, chosen, ?_⟩
  exact (congrArg Topology.selected (Except.ok.inj found)).symm

/-- Every board has at least one node and at most all processes. -/
theorem Launched.onBoard_bounds (launched : placement.Launched) {board : ℕ}
    (listed : board ∈ placement.boardIds) :
    4 ≤ (placement.onBoard board).length ∧ (placement.onBoard board).length ≤ maxNprocs := by
  obtain ⟨rank, aboard⟩ := mem_boardIds.mp listed
  have some := List.length_pos_of_mem (mem_onBoard.mpr aboard)
  have most : (placement.onBoard board).length ≤ placement.nprocs := by
    rw [onBoard, length_sortBy]
    exact (List.length_filter_le _ _).trans (List.length_finRange).le
  exact ⟨Nat.le_of_dvd some (launched.onBoard_length board), most.trans launched.fits⟩

/-- There are as many chosen boards as the shape says. -/
theorem length_chosenBoards {shape : BoardShape}
    (chosen : chooseShape placement.boardSizes = .ok shape) :
    (placement.chosenBoards shape).length = shape.numBoard := by
  have perm := sortBy_perm id (placement.boardIds.map fun board => (placement.onBoard board).length)
  have enough := (chooseShape_eq_ok chosen).2
  rw [boardSizes, perm.countP_eq, List.countP_map] at enough
  rw [chosenBoards, List.length_take, ← List.countP_eq_length_filter]
  exact min_eq_left enough

/-- **The topology.** All processes find the same boards, and each of them whether it is one
of the first of a chosen board. -/
theorem Launched.exists_topology (launched : placement.Launched) :
    ∃ shape : BoardShape, 4 ∣ shape.boardSize ∧ 0 < shape.boardSize ∧
      (placement.chosenBoards shape).length = shape.numBoard ∧
      ∀ rank, placement.getTopology rank = .ok { shape with
        cpuid := placement.cpuid rank
        selected := decide (placement.Chosen shape rank) } := by
  have bounds : ∀ size ∈ placement.boardSizes, 4 ≤ size ∧ size ≤ maxNprocs := by
    intro size listed
    obtain ⟨board, member, rfl⟩ := List.mem_map.mp (mem_sortBy.mp listed)
    exact launched.onBoard_bounds member
  have member := chosen_mem (boardSizes_ne_nil launched.some) fun size listed =>
    lt_of_lt_of_le (by decide) (bounds size listed).1
  obtain ⟨shape, chosen, fours, positive, -, -⟩ :=
    chooseShape_ok (length_boardSizes.trans_le launched.boards) member (bounds _ member).1
      (bounds _ member).2
  refine ⟨shape, fours, positive, length_chosenBoards chosen, fun rank => ?_⟩
  rw [getTopology_ok launched.fits launched.boards chosen,
    decide_eq_decide.mpr (launched.marked_iff fours rank)]

/-- The first processes of the chosen boards, board by board. -/
def members (placement : Placement) (shape : BoardShape) : List (Fin placement.nprocs) :=
  ((placement.chosenBoards shape).map fun board =>
    (placement.onBoard board).take shape.boardSize).flatten

theorem mem_members {shape : BoardShape} {rank : Fin placement.nprocs} :
    rank ∈ placement.members shape ↔ placement.Chosen shape rank := by
  simp [members, Chosen]

theorem chosenBoards_increasing (shape : BoardShape) :
    (placement.chosenBoards shape).Pairwise (· < ·) :=
  (boardIds_increasing.filter _).take

/-- A process of a board before that of another one comes before it. -/
theorem place_lt_of_board_lt {first second : Fin placement.nprocs}
    (before : placement.board first < placement.board second) :
    placement.place first < placement.place second := by
  refine Prod.Lex.toLex_lt_toLex.mpr (Or.inl ?_)
  by_contra above
  have ordered := @Nat.div_le_div_right _ _ 256 (Nat.le_of_not_lt above)
  exact absurd before (Nat.not_lt.mpr ordered)

/-- The members are in strict order. -/
theorem Launched.members_increasing (launched : placement.Launched) (shape : BoardShape) :
    (placement.members shape).Pairwise fun first second =>
      placement.place first < placement.place second := by
  rw [members, List.pairwise_flatten]
  refine ⟨?_, ?_⟩
  · intro piece listed
    obtain ⟨board, -, rfl⟩ := List.mem_map.mp listed
    exact (launched.onBoard_increasing board).take
  · rw [List.pairwise_map]
    refine (chosenBoards_increasing shape).imp ?_
    intro board other before first here second there
    apply place_lt_of_board_lt
    rw [mem_onBoard.mp (List.mem_of_mem_take here), mem_onBoard.mp (List.mem_of_mem_take there)]
    exact before

theorem Launched.members_nodup (launched : placement.Launched) (shape : BoardShape) :
    (placement.members shape).Nodup :=
  (launched.members_increasing shape).imp fun before same => by
    rw [same] at before
    exact lt_irrefl _ before

/-- The keys of the split follow the places. -/
theorem Launched.key_lt (launched : placement.Launched) {first second : Fin placement.nprocs}
    (before : placement.place first < placement.place second) :
    placement.cpuid first * 4 + placement.cgid first <
      placement.cpuid second * 4 + placement.cgid second := by
  have group := launched.cgid_lt first
  rcases Prod.Lex.toLex_lt_toLex.mp before with below | ⟨same, below⟩
  · simp only at below
    omega
  · simp only at same below
    omega

/-- **The split.** If no key overflows, the communicator of the selected processes consists
of the members in their order. -/
theorem Launched.commSplit_ok (launched : placement.Launched) {shape : BoardShape}
    (topology : ∀ rank, placement.getTopology rank = .ok { shape with
      cpuid := placement.cpuid rank
      selected := decide (placement.Chosen shape rank) })
    (small : ∀ rank, placement.cpuid rank * 4 < 2 ^ 31) :
    placement.commSplit true = .ok (placement.members shape) := by
  let entry (rank : Fin placement.nprocs) : placement.SplitEntry :=
    ⟨rank, decide (placement.Chosen shape rank),
      placement.cpuid rank * 4 + placement.cgid rank⟩
  have entries : placement.splitEntry = fun rank => pure (entry rank) := by
    funext rank
    rw [splitEntry, topology, splitKey, if_pos (small rank)]
    rfl
  have nodup := launched.members_nodup shape
  have injective : Function.Injective entry := fun _ _ same => congrArg SplitEntry.rank same
  have sorted : sortBy (fun entry : placement.SplitEntry => toLex (entry.key, entry.rank))
      (((List.finRange placement.nprocs).map entry).filter fun entry => entry.color = true) =
        (placement.members shape).map entry := by
    apply sortBy_eq
    · rw [List.pairwise_map]
      refine (launched.members_increasing shape).imp ?_
      intro first second before
      exact Prod.Lex.toLex_lt_toLex.mpr (Or.inl (launched.key_lt before))
    · rw [List.perm_ext_iff_of_nodup (nodup.map injective)
        (((List.nodup_finRange _).map injective).filter _)]
      intro item
      rw [List.mem_filter, List.mem_map, List.mem_map]
      refine ⟨?_, ?_⟩
      · rintro ⟨rank, member, rfl⟩
        refine ⟨⟨rank, List.mem_finRange rank, rfl⟩, ?_⟩
        simpa [entry] using mem_members.mp member
      · rintro ⟨⟨rank, -, rfl⟩, selected⟩
        refine ⟨rank, mem_members.mpr ?_, rfl⟩
        simpa [entry] using selected
  rw [commSplit, entries, List.mapM_pure]
  simp only [bind, pure, Except.bind, Except.pure, sorted]
  rw [List.map_map]
  exact congrArg Except.ok (List.map_id _)

/-- There is a communicator only if no key overflows. -/
theorem fits_of_commSplit {color : Bool} {comm : List (Fin placement.nprocs)}
    (split : placement.commSplit color = .ok comm) (rank : Fin placement.nprocs) :
    placement.cpuid rank * 4 < 2 ^ 31 := by
  rw [commSplit] at split
  obtain ⟨entries, processed, -⟩ := exists_of_bind_ok split
  obtain ⟨entry, own⟩ := mapM_ok processed (List.mem_finRange rank)
  by_contra large
  rw [splitEntry, splitKey, if_neg large] at own
  obtain ⟨topology, found, own⟩ := exists_of_bind_ok own
  cases own

/-- The members form complete boards. -/
theorem completeBoards_members {shape : BoardShape} (positive : 0 < shape.boardSize)
    (boards : (placement.chosenBoards shape).length = shape.numBoard) :
    placement.CompleteBoards shape (placement.members shape) := by
  have large {board : ℕ} (chosen : board ∈ placement.chosenBoards shape) :
      shape.boardSize ≤ (placement.onBoard board).length :=
    of_decide_eq_true (List.mem_filter.mp (List.mem_of_mem_take chosen)).2
  have uniform : ∀ piece ∈ (placement.chosenBoards shape).map fun board =>
      (placement.onBoard board).take shape.boardSize, piece.length = shape.boardSize := by
    intro piece listed
    obtain ⟨board, chosen, rfl⟩ := List.mem_map.mp listed
    rw [List.length_take]
    exact min_eq_left (large chosen)
  have aboard {index : ℕ} {rank : Fin placement.nprocs}
      (listed : (placement.members shape)[index]? = some rank) :
      (placement.chosenBoards shape)[index / shape.boardSize]? = some (placement.board rank) := by
    obtain ⟨piece, here, member⟩ := mem_piece uniform positive listed
    rw [List.getElem?_map, Option.map_eq_some_iff] at here
    obtain ⟨board, chosen, rfl⟩ := here
    rw [chosen, mem_onBoard.mp (List.mem_of_mem_take member)]
  refine ⟨?_, boards, ?_, ?_⟩
  · rw [members, length_flatten_uniform uniform, List.length_map, boards]
  · intro index board chosen
    refine ⟨large (List.mem_of_getElem? chosen), ?_⟩
    apply flatten_piece uniform
    rw [List.getElem?_map, chosen]
    rfl
  · intro first second rank other here there
    have left := aboard here
    have right := aboard there
    refine ⟨?_, ?_⟩
    · intro same
      rw [same, right] at left
      exact (Option.some.inj left).symm
    · intro same
      rw [same, ← right] at left
      have nodup : (placement.chosenBoards shape).Nodup :=
        (chosenBoards_increasing shape).imp fun before => before.ne
      exact (List.getElem?_inj (List.getElem?_eq_some_iff.mp (left.trans right)).1 nodup).mp left

end Placement

open Placement

/-- **Complete boards in rank order.** The processes of a job agree on a topology whose
communicator holds the first processes of each chosen board, board by board, if and only if
the node numbers are below `2^29`, where `my_cpuid*4` does not overflow. -/
theorem complete_boards_iff (placement : Placement) (launched : placement.Launched) :
    (∃ (shape : BoardShape) (comm : List (Fin placement.nprocs)),
      (∀ rank, ∃ topology, placement.getTopology rank = .ok topology ∧
        topology.toBoardShape = shape) ∧
      placement.commSplit true = .ok comm ∧ placement.CompleteBoards shape comm) ↔
      ∀ rank, placement.cpuid rank < 2 ^ 29 := by
  obtain ⟨shape, fours, positive, boards, topology⟩ := launched.exists_topology
  refine ⟨?_, ?_⟩
  · rintro ⟨_, comm, -, split, -⟩ rank
    have fits := fits_of_commSplit split rank
    omega
  · intro small
    have fits (rank : Fin placement.nprocs) : placement.cpuid rank * 4 < 2 ^ 31 := by
      have := small rank
      omega
    exact ⟨shape, placement.members shape, fun rank => ⟨_, topology rank, rfl⟩,
      launched.commSplit_ok topology fits, completeBoards_members positive boards⟩

/-- A job on the given nodes, with the processes of each node next to each other. -/
def onNodes (nodes : List ℕ) (small : ∀ node ∈ nodes, node < 2 ^ 31) : Placement where
  nprocs := nodes.length * 4
  cpuid rank := nodes.get ⟨rank.val / 4, by omega⟩
  cgid rank := rank.val % 4
  cpuid_lt _ := small _ (List.get_mem _ _)

theorem launched_onNodes {nodes : List ℕ} (small : ∀ node ∈ nodes, node < 2 ^ 31)
    (some : nodes ≠ []) (few : nodes.length ≤ 64) (nodup : nodes.Nodup) :
    (onNodes nodes small).Launched := by
  have length := List.length_pos_of_ne_nil some
  have nprocs : (onNodes nodes small).nprocs = nodes.length * 4 := rfl
  refine ⟨?_, ?_, ?_, ?_, ?_, ?_⟩
  · omega
  · rw [nprocs, maxNprocs]
    omega
  · rw [boardIds, Finset.length_sort, maxNumBoard]
    refine Finset.card_image_le.trans ?_
    rw [Finset.card_univ, Fintype.card_fin, nprocs]
    omega
  · intro rank
    exact Nat.mod_lt _ (by decide)
  · intro first second node group
    have quotient := Fin.mk.inj (List.nodup_iff_injective_get.mp nodup node)
    have remainder : first.val % 4 = second.val % 4 := group
    apply Fin.ext
    omega
  · intro rank cgid below
    have inside : rank.val < nodes.length * 4 := rank.isLt
    have moved : rank.val / 4 * 4 + cgid < nodes.length * 4 := by omega
    refine ⟨⟨rank.val / 4 * 4 + cgid, moved⟩, ?_, ?_⟩
    · have quotient : (rank.val / 4 * 4 + cgid) / 4 = rank.val / 4 := by omega
      change nodes.get ⟨(rank.val / 4 * 4 + cgid) / 4, _⟩ = nodes.get ⟨rank.val / 4, _⟩
      simp only [quotient]
    · change (rank.val / 4 * 4 + cgid) % 4 = cgid
      omega

/-- Two nodes on each of two boards. -/
def fourNodes : Placement :=
  onNodes [7, 5, 300, 256] (by decide)

/-- The processes of two nodes on each of two boards form two complete boards. -/
theorem complete_boards_iff_four : ∃ shape comm, fourNodes.commSplit true = .ok comm ∧
    fourNodes.CompleteBoards shape comm := by
  have complete := complete_boards_iff fourNodes
    (launched_onNodes _ (by decide) (by decide) (by decide))
  obtain ⟨shape, comm, -, split, boards⟩ := complete.mpr (by decide)
  exact ⟨shape, comm, split, boards⟩

/-- Two nodes whose numbers are the same modulo `2^30`. -/
def farNodes : Placement :=
  onNodes [0, 2 ^ 30] (by decide)

/-- The processes of the nodes 0 and `2^30` are launched as the job script does, but there is
no communicator of complete boards: `my_cpuid*4` overflows on the second node. -/
theorem far_nodes_incomplete : farNodes.Launched ∧
    ¬ ∃ (shape : BoardShape) (comm : List (Fin farNodes.nprocs)),
      (∀ rank, ∃ topology, farNodes.getTopology rank = .ok topology ∧
        topology.toBoardShape = shape) ∧
      farNodes.commSplit true = .ok comm ∧ farNodes.CompleteBoards shape comm := by
  have launched : farNodes.Launched := launched_onNodes _ (by decide) (by decide) (by decide)
  refine ⟨launched, ?_⟩
  rintro ⟨shape, comm, -, split, -⟩
  exact absurd (fits_of_commSplit split ⟨4, by decide⟩) (by decide)

end Ympi.Shuffle
