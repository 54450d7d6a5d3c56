import Ympi.Foundation.Segments
import Ympi.Shuffle.RouteTable
import Mathlib.Data.List.FinRange
import Mathlib.Data.Prod.Lex
import Mathlib.Data.Fin.Basic

/-! # The topology of the processes

Each process finds out from the node numbers of all processes how many boards with how
many processes each take part in the shuffle, and whether it is one of them itself. The
processes with the same answer form a communicator, in the order of their node numbers and
core groups.
-/

namespace Ympi.Shuffle

open Foundation

/-- `MAX_NUM_BOARD`. -/
def maxNumBoard : ℕ := 256

/-- `BOARD_ID`. -/
def boardId (cpuid : ℕ) : ℕ :=
  cpuid / 256

/-- Why a process has no topology or no communicator. -/
inductive Fault where
  /-- A read or write past the end of an array. -/
  | outOfBounds
  /-- An `int` overflows, which has no defined result. -/
  | overflow
  | exit (status : Int)
  deriving DecidableEq, Repr

/-- The processes with the number of their node, a non-negative `int`, and their core
group. -/
structure Placement where
  nprocs : ℕ
  cpuid : Fin nprocs → ℕ
  cgid : Fin nprocs → ℕ
  cpuid_lt : ∀ rank, cpuid rank < 2 ^ 31

/-- `YMPID_Topology`. -/
structure Topology extends BoardShape where
  cpuid : ℕ
  selected : Bool

/-- Store the size of the next board in `sizeof_board`. -/
def storeBoard (sizes : List ℕ) (size : ℕ) : Except Fault (List ℕ) :=
  if sizes.length < maxNumBoard then .ok (sizes ++ [size]) else .error .outOfBounds

/-- The first scan of `cpuid_list`, from entry `i` on: a board ends where the next one
begins. -/
def scanBoards (sizes : List ℕ) (begin i lastBoardId : ℕ) : List ℕ → Except Fault (List ℕ)
  | [] => storeBoard sizes (i - begin)
  | cpuid :: rest =>
      if boardId cpuid ≠ lastBoardId then do
        let sizes ← storeBoard sizes (i - begin)
        scanBoards sizes i (i + 1) (boardId cpuid) rest
      else scanBoards sizes begin (i + 1) lastBoardId rest

/-- The loop that chooses the board size from the sorted sizes: `max_np` and
`board_size` after it. -/
def chooseBoardSize (maxNp boardSize : ℕ) : List ℕ → ℕ × ℕ
  | [] => (maxNp, boardSize)
  | size :: rest =>
      if size * (rest.length + 1) > maxNp then
        chooseBoardSize (size * (rest.length + 1)) size rest
      else chooseBoardSize maxNp boardSize rest

/-- `find_largest_no_larger_than`, where a read past the end of the table is a fault. -/
def lookupFactorized (number : ℕ) : Except Fault Factorized :=
  match findLargestNoLargerThan number with
  | some entry => .ok entry
  | none => .error .outOfBounds

/-- The block that chooses the number of boards and their size. -/
def chooseShape (sizes : List ℕ) : Except Fault BoardShape := do
  let (_, boardSize) := chooseBoardSize 0 0 sizes
  let entry ← lookupFactorized (boardSize / 4)
  let boardSizeFactorized : Factorized :=
    ⟨entry.number * 4, { entry.factor with n0 := entry.factor.n0 + 2 }⟩
  let targetNumBoard := sizes.countP fun size => boardSizeFactorized.number ≤ size
  let numBoardFactorized ← lookupFactorized targetNumBoard
  return {
    numBoard := numBoardFactorized.number
    numBoardFactorized := numBoardFactorized
    boardSize := boardSizeFactorized.number
    boardSizeFactorized := boardSizeFactorized }

/-- One of the `size` entries of `cpuid_list` from `begin` on is `my_cpuid`. -/
def marks (cpuidList : List ℕ) (myCpuid begin size : ℕ) : Bool :=
  ((cpuidList.drop begin).take size).contains myCpuid

/-- The second scan of `cpuid_list`, from entry `i` on: `begin`, `current_num_board` and
`selected` after it. -/
def scanSelected (cpuidList : List ℕ) (myCpuid boardSize targetNumBoard : ℕ)
    (begin i lastBoardId current : ℕ) (selected : Bool) : List ℕ → ℕ × ℕ × Bool
  | [] => (begin, current, selected)
  | cpuid :: rest =>
      if boardId cpuid ≠ lastBoardId then
        if boardSize ≤ i - begin then
          let selected := selected || marks cpuidList myCpuid begin boardSize
          if current + 1 = targetNumBoard then (begin, current + 1, selected)
          else scanSelected cpuidList myCpuid boardSize targetNumBoard i (i + 1) (boardId cpuid)
            (current + 1) selected rest
        else scanSelected cpuidList myCpuid boardSize targetNumBoard i (i + 1) (boardId cpuid)
          current selected rest
      else scanSelected cpuidList myCpuid boardSize targetNumBoard begin (i + 1) lastBoardId
        current selected rest

/-- After the loop the last board is left: `current_num_board` and `selected` after it. -/
def finishSelect (cpuidList : List ℕ) (myCpuid boardSize targetNumBoard : ℕ) :
    ℕ × ℕ × Bool → ℕ × Bool
  | (begin, current, selected) =>
      if current < targetNumBoard ∧ boardSize ≤ cpuidList.length - begin then
        (current + 1, selected || marks cpuidList myCpuid begin boardSize)
      else (current, selected)

/-- The block that decides whether a process is selected. -/
def select (cpuidList : List ℕ) (myCpuid boardSize targetNumBoard : ℕ) : Except Fault Bool :=
  match cpuidList with
  | [] => .error .outOfBounds
  | first :: rest =>
      let (current, selected) := finishSelect cpuidList myCpuid boardSize targetNumBoard
        (scanSelected cpuidList myCpuid boardSize targetNumBoard 0 1 (boardId first) 0 false rest)
      if current ≠ targetNumBoard then .error (.exit (-1)) else .ok selected

namespace Placement

variable (placement : Placement)

/-- The gathered and sorted `cpuid_list`. -/
def cpuidList : Except Fault (List ℕ) :=
  if placement.nprocs ≤ maxNprocs then
    .ok (sortBy id ((List.finRange placement.nprocs).map placement.cpuid))
  else .error .outOfBounds

/-- `YMPID_Get_topology` up to the split. -/
def getTopology (rank : Fin placement.nprocs) : Except Fault Topology := do
  let cpuidList ← placement.cpuidList
  match cpuidList with
  | [] => .error .outOfBounds
  | first :: rest =>
      let sizes ← scanBoards [] 0 1 (boardId first) rest
      let shape ← chooseShape (sortBy id sizes)
      let selected ← select cpuidList (placement.cpuid rank) shape.boardSize shape.numBoard
      return { shape with cpuid := placement.cpuid rank, selected := selected }

/-- The key `my_cpuid*4 + cgid`, where the product is one of two `int`s. -/
def splitKey (rank : Fin placement.nprocs) : Except Fault ℕ :=
  if placement.cpuid rank * 4 < 2 ^ 31 then
    .ok (placement.cpuid rank * 4 + placement.cgid rank)
  else .error .overflow

/-- What a process contributes to `MPI_Comm_split`. -/
structure SplitEntry (placement : Placement) where
  rank : Fin placement.nprocs
  color : Bool
  key : ℕ

/-- The call of `MPI_Comm_split` of a process. -/
def splitEntry (rank : Fin placement.nprocs) : Except Fault placement.SplitEntry := do
  let topology ← placement.getTopology rank
  let key ← placement.splitKey rank
  return ⟨rank, topology.selected, key⟩

/-- The processes of a new communicator in the order of their new ranks: by their keys, and
by their old ranks if the keys are equal. -/
def commSplit (color : Bool) : Except Fault (List (Fin placement.nprocs)) := do
  let entries ← (List.finRange placement.nprocs).mapM placement.splitEntry
  let members := entries.filter fun entry => entry.color = color
  return (sortBy (fun entry => toLex (entry.key, entry.rank)) members).map SplitEntry.rank

end Placement

end Ympi.Shuffle
