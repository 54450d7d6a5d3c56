import Ympi.Shuffle.BoardSizes
import Ympi.Shuffle.Exchange

/-! # Selected and left-over processes

All processes calculate their route tables from the topology of the selected ones, with
their own rank in the communicator that the split has put them into. The left-over
processes form a communicator too and shuffle in it, and nothing relates its size to the
number of ranks of the topology.
-/

namespace Ympi.Shuffle

open Foundation

namespace BoardShape

variable {shape : BoardShape} {rank count : ℕ}

/-- An iteration of any rank replaces a digit of it, of which the ranks of the topology make
whole turns. -/
theorem iteration_replaces (factored : shape.Factored) {iteration : Iteration}
    (member : iteration ∈ shape.iterations rank) :
    0 < iteration.base ∧ iteration.base * iteration.size ∣ shape.numRanks ∧
      ∀ p, iteration.next p = MixedRadix.setDigit iteration.base iteration.size rank p := by
  rcases shape.iterations_cases rank member with ⟨_, size, radix, rfl⟩ | ⟨_, size, radix, rfl⟩
  · exact ⟨Nat.mul_pos (shape.boards.base_pos _) (boardSize_pos factored),
      base_inter_dvd factored radix, interBoard_next shape rank size _⟩
  · exact ⟨shape.places.base_pos _, base_intra_dvd factored radix,
      intraBoard_next shape rank factored radix⟩

/-- The entries of the iterations of all ranks below `count` are below `count`. -/
def Closed (shape : BoardShape) (count : ℕ) : Prop :=
  ∀ rank < count, ∀ iteration ∈ shape.iterations rank, ∀ p < iteration.size,
    iteration.next p < count

/-- In a closed set of ranks the last one has only last digits. -/
theorem Closed.last_digit (closed : shape.Closed (rank + 1)) (factored : shape.Factored)
    {index : ℕ} {iteration : Iteration} (listed : (shape.iterations rank)[index]? = some iteration) :
    MixedRadix.digit iteration.base iteration.size rank = iteration.size - 1 := by
  have member := List.mem_of_getElem? listed
  have size := (iteration_size shape rank member).1
  obtain ⟨positive, -, next⟩ := iteration_replaces factored member
  have below := closed rank (Nat.lt_succ_self rank) iteration member (iteration.size - 1) (by omega)
  rw [next] at below
  exact MixedRadix.digit_eq_of_setDigit_le positive (by omega) (Nat.le_of_lt_succ below)

/-- So its place is the last one of its board. -/
theorem Closed.last_place (closed : shape.Closed (rank + 1)) (factored : shape.Factored)
    {index : ℕ} (early : index ≤ shape.places.radices.length) :
    rank % shape.places.base index = shape.places.base index - 1 := by
  induction index with
  | zero => exact Nat.mod_one rank
  | succ index ih =>
      have listed := List.getElem?_eq_getElem (Nat.lt_of_succ_le early)
      have last := closed.last_digit factored (iterations_getElem?_intra shape rank listed)
      have sizePositive := (Factor.mem_radices (List.mem_of_getElem? listed)).1
      rw [Factor.base_succ listed]
      exact MixedRadix.mod_mul_eq_pred (shape.places.base_pos index)
        (ih (Nat.le_of_succ_le early)) last (by omega)

/-- And its board is the last one. -/
theorem Closed.last_board (closed : shape.Closed (rank + 1)) (factored : shape.Factored)
    {index : ℕ} (early : index ≤ shape.boards.radices.length) :
    rank % (shape.boards.base index * shape.boardSize) =
      shape.boards.base index * shape.boardSize - 1 := by
  induction index with
  | zero =>
      have place := closed.last_place factored (le_refl shape.places.radices.length)
      rw [Factor.base_length, ← factored.boardSize] at place
      rw [show shape.boards.base 0 = 1 from rfl, Nat.one_mul]
      exact place
  | succ index ih =>
      have listed := List.getElem?_eq_getElem (Nat.lt_of_succ_le early)
      have last := closed.last_digit factored (iterations_getElem?_inter shape rank listed)
      have sizePositive := (Factor.mem_radices (List.mem_of_getElem? listed)).1
      have positive := Nat.mul_pos (shape.boards.base_pos index) (boardSize_pos factored)
      rw [Factor.base_succ listed, Nat.mul_right_comm]
      exact MixedRadix.mod_mul_eq_pred positive (ih (Nat.le_of_succ_le early)) last (by omega)

/-- **Closed sets of ranks.** The first ranks of a communicator are closed under the entries
of their tables if and only if they are whole copies of the ranks of the topology. -/
theorem closed_iff (factored : shape.Factored) : shape.Closed count ↔ shape.numRanks ∣ count := by
  refine ⟨?_, ?_⟩
  · intro closed
    cases count with
    | zero => exact Nat.dvd_zero _
    | succ rank =>
        have last := closed.last_board factored (le_refl shape.boards.radices.length)
        rw [Factor.base_length, ← factored.numBoard] at last
        have some : 0 < shape.numBoard * shape.boardSize := by
          rw [factored.numBoard]
          exact Nat.mul_pos shape.boards.product_pos (boardSize_pos factored)
        have split := Nat.div_add_mod rank (shape.numBoard * shape.boardSize)
        rw [last] at split
        refine ⟨rank / (shape.numBoard * shape.boardSize) + 1, ?_⟩
        rw [numRanks, Nat.mul_add, Nat.mul_one]
        omega
  · intro turns rank below iteration member p small
    obtain ⟨positive, whole, next⟩ := iteration_replaces factored member
    rw [next]
    exact MixedRadix.setDigit_lt positive small (whole.trans turns) below

end BoardShape

/-- All ranks of the table are ranks of a communicator with `size` members. -/
def RouteTable.Within (table : RouteTable) (size : ℕ) : Prop :=
  ∀ iter < table.totalIter, ∀ p < table.iterGroupSize iter, table.successiveRank iter p < size

/-- The ranks of a table that was empty are those of its iterations. -/
theorem RouteTable.Extends.within_iff {iterations : List Iteration} {before after : RouteTable}
    (extends' : Extends iterations before after) (empty : before.totalIter = 0) (size : ℕ) :
    after.Within size ↔ ∀ iteration ∈ iterations, ∀ p < iteration.size, iteration.next p < size := by
  obtain ⟨total, entry⟩ := extends'.of_empty empty
  refine ⟨?_, ?_⟩
  · intro within iteration member p small
    obtain ⟨index, listed⟩ := List.mem_iff_getElem?.mp member
    have stored := entry listed
    rw [← stored.next p small]
    apply within index
    · rw [total]
      exact (List.getElem?_eq_some_iff.mp listed).1
    · rw [stored.size]
      exact small
  · intro inside iter early p small
    rw [total] at early
    have stored := entry (List.getElem?_eq_getElem early)
    rw [stored.size] at small
    rw [stored.next p small]
    exact inside _ (List.getElem_mem early) p small

namespace Placement

variable (placement : Placement)

/-- `YMPI_Shuffle` up to the exchange: the communicator of the process, in which its rank is
its index, and its route table, unless a write of the table is out of bounds. -/
def shuffle (rank : Fin placement.nprocs) :
    Except Fault (List (Fin placement.nprocs) × Option RouteTable) := do
  let topology ← placement.getTopology rank
  let comm ← placement.commSplit topology.selected
  return (comm, topology.generate (comm.idxOf rank) .init)

variable {placement}

/-- The shape is factored and has no more ranks than there may be processes. -/
theorem getTopology_bounds {rank : Fin placement.nprocs} {topology : Topology}
    (found : placement.getTopology rank = .ok topology) :
    topology.Factored ∧ topology.numRanks ≤ maxNprocs := by
  obtain ⟨fits, chosen, -⟩ := getTopology_eq_ok found
  obtain ⟨factored, -⟩ := chooseShape_eq_ok chosen
  exact ⟨factored, (numRanks_le_nprocs chosen).trans fits⟩

variable {shape : BoardShape} {rank : Fin placement.nprocs}

/-- What a process that returns contributes to the split. -/
theorem splitEntry_eq_ok {entry : placement.SplitEntry}
    (done : placement.splitEntry rank = .ok entry) : entry.rank = rank ∧
      ∃ topology, placement.getTopology rank = .ok topology ∧ entry.color = topology.selected := by
  rw [splitEntry] at done
  obtain ⟨topology, found, done⟩ := exists_of_bind_ok done
  obtain ⟨key, _, done⟩ := exists_of_bind_ok done
  rw [← Except.ok.inj done]
  exact ⟨rfl, topology, found, rfl⟩

/-- All processes that return have found the same shape, and whether they are marked. -/
theorem exists_topology_of_returns (chosen : chooseShape placement.boardSizes = .ok shape)
    {entry : placement.SplitEntry} (done : placement.splitEntry rank = .ok entry) :
    ∃ topology, placement.getTopology rank = .ok topology ∧ topology.toBoardShape = shape ∧
      topology.selected = decide (placement.Marked shape rank) ∧
      entry.color = topology.selected := by
  obtain ⟨-, topology, found, colored⟩ := splitEntry_eq_ok done
  obtain ⟨-, chosen', selected⟩ := getTopology_eq_ok found
  cases chosen.symm.trans chosen'
  exact ⟨topology, found, rfl, selected, colored⟩

/-- The processes on the nodes that take part. -/
def marked (placement : Placement) (shape : BoardShape) : Finset (Fin placement.nprocs) :=
  Finset.univ.filter (placement.Marked shape)

/-- A job has as many processes on the nodes that take part as the topology has ranks. -/
theorem Launched.card_marked (launched : placement.Launched)
    (chosen : chooseShape placement.boardSizes = .ok shape) :
    (placement.marked shape).card = shape.numBoard * shape.boardSize := by
  obtain ⟨shape', fours, positive, boards, topology⟩ := launched.exists_topology
  obtain ⟨-, chosen', -⟩ := getTopology_eq_ok (topology ⟨0, launched.some⟩)
  obtain rfl : shape = shape' := Except.ok.inj (chosen.symm.trans chosen')
  have own : (placement.members shape).toFinset = placement.marked shape := by
    ext rank
    rw [List.mem_toFinset, mem_members, ← launched.marked_iff fours, marked, Finset.mem_filter,
      and_iff_right (Finset.mem_univ rank)]
  rw [← own, List.toFinset_card_of_nodup (launched.members_nodup shape)]
  exact (completeBoards_members positive boards).length

/-- **The split.** If all processes return, each is in the communicator of its color, and
nowhere twice. -/
theorem exists_commSplit (chosen : chooseShape placement.boardSizes = .ok shape)
    (returns : ∀ rank, ∃ entry, placement.splitEntry rank = .ok entry) (color : Bool) :
    ∃ comm, placement.commSplit color = .ok comm ∧ comm.Nodup ∧
      ∀ rank, rank ∈ comm ↔ decide (placement.Marked shape rank) = color := by
  choose entry own using returns
  have parts (rank : Fin placement.nprocs) := splitEntry_eq_ok (own rank)
  have colors (rank : Fin placement.nprocs) :
      (entry rank).color = decide (placement.Marked shape rank) := by
    obtain ⟨topology, -, -, selected, colored⟩ := exists_topology_of_returns chosen (own rank)
    exact colored.trans selected
  have entries : placement.splitEntry = fun rank => pure (entry rank) := funext own
  have injective : Function.Injective entry := by
    intro first second same
    rw [← (parts first).1, ← (parts second).1, same]
  refine ⟨_, by rw [commSplit, entries, List.mapM_pure]; rfl, ?_, ?_⟩
  · apply List.Nodup.map_on
    · intro first here second there same
      obtain ⟨rank, -, rfl⟩ := List.mem_map.mp (List.mem_filter.mp (mem_sortBy.mp here)).1
      obtain ⟨other, -, rfl⟩ := List.mem_map.mp (List.mem_filter.mp (mem_sortBy.mp there)).1
      rw [(parts rank).1, (parts other).1] at same
      rw [same]
    · exact (sortBy_perm _ _).nodup_iff.mpr
        (((List.nodup_finRange _).map injective).filter _)
  · intro rank
    rw [List.mem_map]
    refine ⟨?_, ?_⟩
    · rintro ⟨_, member, rfl⟩
      obtain ⟨listed, colored⟩ := List.mem_filter.mp (mem_sortBy.mp member)
      obtain ⟨rank, -, rfl⟩ := List.mem_map.mp listed
      rw [(parts rank).1, ← colors rank]
      exact of_decide_eq_true colored
    · intro colored
      refine ⟨entry rank, mem_sortBy.mpr (List.mem_filter.mpr ⟨?_, ?_⟩), (parts rank).1⟩
      · exact List.mem_map_of_mem (List.mem_finRange rank)
      · exact decide_eq_true ((colors rank).trans colored)

theorem mem_commSplit (chosen : chooseShape placement.boardSizes = .ok shape)
    (returns : ∀ rank, ∃ entry, placement.splitEntry rank = .ok entry) {color : Bool}
    {comm : List (Fin placement.nprocs)} (split : placement.commSplit color = .ok comm) :
    comm.Nodup ∧ ∀ rank, rank ∈ comm ↔ decide (placement.Marked shape rank) = color := by
  obtain ⟨_, same, nodup, members⟩ := exists_commSplit chosen returns color
  cases split.symm.trans same
  exact ⟨nodup, members⟩

/-- The sizes of the two communicators. -/
theorem length_commSplit (chosen : chooseShape placement.boardSizes = .ok shape)
    (returns : ∀ rank, ∃ entry, placement.splitEntry rank = .ok entry) :
    ∃ selected others, placement.commSplit true = .ok selected ∧
      placement.commSplit false = .ok others ∧
      selected.length = (placement.marked shape).card ∧
      selected.length + others.length = placement.nprocs := by
  obtain ⟨selected, split, nodup, members⟩ := exists_commSplit chosen returns true
  obtain ⟨others, split', nodup', members'⟩ := exists_commSplit chosen returns false
  have own : selected.toFinset = placement.marked shape := by
    ext rank
    rw [List.mem_toFinset, members, decide_eq_true_iff, marked, Finset.mem_filter]
    exact (and_iff_right (Finset.mem_univ rank)).symm
  have rest : others.toFinset = (placement.marked shape)ᶜ := by
    ext rank
    rw [List.mem_toFinset, members', decide_eq_false_iff_not, marked, Finset.mem_compl,
      Finset.mem_filter, and_iff_right (Finset.mem_univ rank)]
  refine ⟨selected, others, split, split', ?_, ?_⟩
  · rw [← own, List.toFinset_card_of_nodup nodup]
  · rw [← List.toFinset_card_of_nodup nodup, ← List.toFinset_card_of_nodup nodup', own, rest,
      Finset.card_add_card_compl, Fintype.card_fin]

/-- The processes of a job return if no key overflows. -/
theorem Launched.exists_splitEntry (launched : placement.Launched)
    (small : ∀ rank, placement.cpuid rank * 4 < 2 ^ 31) (rank : Fin placement.nprocs) :
    ∃ entry, placement.splitEntry rank = .ok entry := by
  obtain ⟨_, -, -, -, topology⟩ := launched.exists_topology
  rw [splitEntry, topology, splitKey, if_pos (small rank)]
  exact ⟨_, rfl⟩

/-- The table of a process of a communicator. -/
theorem exists_shuffle (chosen : chooseShape placement.boardSizes = .ok shape)
    (returns : ∀ rank, ∃ entry, placement.splitEntry rank = .ok entry) {color : Bool}
    {comm : List (Fin placement.nprocs)} (split : placement.commSplit color = .ok comm)
    (member : rank ∈ comm) :
    ∃ table, placement.shuffle rank = .ok (comm, some table) ∧
      (table.Within comm.length ↔ ∀ iteration ∈ shape.iterations (comm.idxOf rank),
        ∀ p < iteration.size, iteration.next p < comm.length) := by
  obtain ⟨entry, own⟩ := returns rank
  obtain ⟨topology, found, rfl, selected, -⟩ := exists_topology_of_returns chosen own
  obtain ⟨factored, fits⟩ := getTopology_bounds found
  obtain ⟨table, generated, extended⟩ := BoardShape.exists_generate factored fits
    RouteTable.init_empty (comm.idxOf rank)
  refine ⟨table, ?_, extended.within_iff rfl comm.length⟩
  rw [((mem_commSplit chosen returns split).2 rank).mp member] at selected
  simp only [shuffle, found, selected, split, bind, Except.bind]
  rw [generated]
  rfl

/-- **A communicator.** The tables of all of its processes hold only ranks of it if and only
if it is made of whole copies of the ranks of the topology. -/
theorem within_iff_dvd (chosen : chooseShape placement.boardSizes = .ok shape)
    (returns : ∀ rank, ∃ entry, placement.splitEntry rank = .ok entry) {color : Bool}
    {comm : List (Fin placement.nprocs)} (split : placement.commSplit color = .ok comm) :
    (∀ rank ∈ comm, ∃ table, placement.shuffle rank = .ok (comm, some table) ∧
      table.Within comm.length) ↔ shape.numRanks ∣ comm.length := by
  rw [← BoardShape.closed_iff (chooseShape_eq_ok chosen).1]
  refine ⟨?_, ?_⟩
  · intro within index below iteration listed p small
    -- The entries of every rank of the communicator are those of the process with this rank.
    have member : comm[index] ∈ comm := List.getElem_mem below
    obtain ⟨table, shuffled, inside⟩ := exists_shuffle chosen returns split member
    obtain ⟨table', shuffled', holds⟩ := within comm[index] member
    cases shuffled.symm.trans shuffled'
    rw [(mem_commSplit chosen returns split).1.idxOf_getElem index below] at inside
    exact inside.mp holds iteration listed p small
  · intro closed rank member
    obtain ⟨table, shuffled, inside⟩ := exists_shuffle chosen returns split member
    exact ⟨table, shuffled, inside.mpr (closed _ (List.idxOf_lt_length_of_mem member))⟩

/-- When all processes return they have found the shape of the boards. -/
theorem exists_shape (some : 0 < placement.nprocs)
    (returns : ∀ rank, ∃ entry, placement.splitEntry rank = .ok entry) :
    ∃ shape : BoardShape, chooseShape placement.boardSizes = .ok shape ∧
      placement.IsShape shape.numBoard shape.boardSize := by
  obtain ⟨entry, own⟩ := returns ⟨0, some⟩
  obtain ⟨-, topology, found, -⟩ := splitEntry_eq_ok own
  obtain ⟨fits, boards, chosen⟩ := exists_of_getTopology found
  exact ⟨_, chosen, isShape_of_chosen some fits boards chosen⟩

/-- Which processes are marked depends on the number of boards and their size only. -/
theorem marked_congr {shape shape' : BoardShape} (boards : shape.numBoard = shape'.numBoard)
    (places : shape.boardSize = shape'.boardSize) :
    placement.marked shape = placement.marked shape' := by
  have chosen (rank : Fin placement.nprocs) :
      placement.Chosen shape rank ↔ placement.Chosen shape' rank := by
    rw [Chosen, Chosen, chosenBoards, chosenBoards, boards, places]
  refine Finset.filter_congr fun rank _ => ?_
  exact exists_congr fun other => and_congr_left' (chosen other)

theorem card_marked_of_none (none : placement.nprocs = 0) (shape : BoardShape) :
    (placement.marked shape).card = 0 := by
  have most := (placement.marked shape).card_le_univ.trans (Fintype.card_fin _).le
  exact Nat.le_zero.mp (most.trans none.le)

end Placement

open Placement

/-- **Selected and left-over processes.** For a placement with which all processes return
from `YMPID_Get_topology`, the route tables of all processes hold only ranks of their
communicators if and only if the number of ranks of the shape of the boards divides both the
number of the processes on the nodes that take part and the number of all processes. -/
theorem valid_peers_iff (placement : Placement)
    (returns : ∀ rank, ∃ entry, placement.splitEntry rank = .ok entry) :
    (∀ rank, ∃ comm table, placement.shuffle rank = .ok (comm, some table) ∧
      table.Within comm.length) ↔
    ∀ shape : BoardShape, placement.IsShape shape.numBoard shape.boardSize →
      shape.numBoard * shape.boardSize ∣ (placement.marked shape).card ∧
        shape.numBoard * shape.boardSize ∣ placement.nprocs := by
  refine ⟨?_, ?_⟩
  · intro valid shape given
    rcases Nat.eq_zero_or_pos placement.nprocs with none | some
    · rw [card_marked_of_none none, none]
      exact ⟨dvd_zero _, dvd_zero _⟩
    · obtain ⟨shape', chosen, given'⟩ := exists_shape some returns
      obtain ⟨boards, places⟩ := given.unique given'
      rw [marked_congr boards places, boards, places]
      have turns {color : Bool} {comm : List (Fin placement.nprocs)}
          (split : placement.commSplit color = .ok comm) : shape'.numRanks ∣ comm.length := by
        refine (within_iff_dvd chosen returns split).mp fun rank member => ?_
        obtain ⟨_, table, shuffled, within⟩ := valid rank
        obtain ⟨_, shuffled', -⟩ := exists_shuffle chosen returns split member
        cases shuffled.symm.trans shuffled'
        exact ⟨table, shuffled, within⟩
      obtain ⟨selected, others, split, split', marked, total⟩ := length_commSplit chosen returns
      refine ⟨marked ▸ turns split, total ▸ ?_⟩
      exact Nat.dvd_add (turns split) (turns split')
  · intro turns rank
    obtain ⟨shape, chosen, given⟩ := exists_shape (Nat.zero_lt_of_lt rank.isLt) returns
    obtain ⟨selected, others, split, split', marked, total⟩ := length_commSplit chosen returns
    obtain ⟨some, all⟩ := turns shape given
    rw [← marked] at some
    rw [← total] at all
    cases color : decide (placement.Marked shape rank) with
    | true =>
        have member := ((mem_commSplit chosen returns split).2 rank).mpr color
        exact ⟨selected, (within_iff_dvd chosen returns split).mpr some rank member⟩
    | false =>
        have member := ((mem_commSplit chosen returns split').2 rank).mpr color
        have rest := (Nat.dvd_add_right some).mp all
        exact ⟨others, (within_iff_dvd chosen returns split').mpr rest rank member⟩

/-- A job on one node. -/
def oneNode : Placement :=
  onNodes [3] (by decide)

/-- The last process of a job on one node has only ranks below 4 in its table. -/
theorem valid_peers_iff_one : ∃ comm table,
    oneNode.shuffle ⟨3, by decide⟩ = .ok (comm, some table) ∧ table.Within comm.length := by
  have launched : oneNode.Launched := launched_onNodes _ (by decide) (by decide) (by decide)
  have returns := launched.exists_splitEntry (by decide)
  refine (valid_peers_iff oneNode returns).mpr ?_ ⟨3, by decide⟩
  intro shape given
  obtain ⟨shape', chosen, given'⟩ := exists_shape (by decide) returns
  obtain ⟨boards, places⟩ := given.unique given'
  have found : oneNode.getTopology ⟨0, by decide⟩ = .ok {
      numBoard := 1
      numBoardFactorized := ⟨1, 0, 0, 0⟩
      boardSize := 4
      boardSizeFactorized := ⟨4, 2, 0, 0⟩
      cpuid := 3
      selected := true } := rfl
  obtain ⟨-, chosen', -⟩ := getTopology_eq_ok found
  rw [marked_congr boards places, launched.card_marked chosen, boards, places,
    Except.ok.inj (chosen.symm.trans chosen')]
  exact ⟨by decide, by decide⟩

/-- A node on one board and three on another one. -/
def unevenNodes : Placement :=
  onNodes [0, 256, 257, 258] (by decide)

/-- On one node of a board and three of another one the processes of the first node are left
over. They form a communicator of four, but the first of them has rank 8 in its table. -/
theorem left_over_peers_invalid :
    (∀ rank, ∃ entry, unevenNodes.splitEntry rank = .ok entry) ∧
    ∃ comm table, unevenNodes.shuffle ⟨0, by decide⟩ = .ok (comm, some table) ∧
      comm.length = 4 ∧ table.totalIter = 3 ∧ table.iterGroupSize 2 = 3 ∧
      table.successiveRank 2 2 = 8 ∧ ¬ table.Within comm.length := by
  refine ⟨?_, _, _, rfl, rfl, rfl, rfl, rfl, ?_⟩
  · have launched : unevenNodes.Launched :=
      launched_onNodes _ (by decide) (by decide) (by decide)
    exact launched.exists_splitEntry (by decide)
  · intro within
    exact absurd (within 2 (by decide) 2 (by decide)) (by decide)

end Ympi.Shuffle
