import Ympi.Shuffle.RouteTable

/-! # Messages reach their destinations

In each iteration a rank hands a message on to the rank of its table that has the digit of
the destination. When the digits of the board number have been replaced the message is on
the board of the destination, and the digits of the place on the board lead it home.
-/

namespace Ympi.Shuffle

open Foundation

/-- Where a rank with this table sends a message for `dest` in an iteration. -/
def RouteTable.hop (table : RouteTable) (dest iter : ℕ) : ℕ :=
  table.successiveRank iter (dest / table.iterGroupBase iter % table.iterGroupSize iter)

/-- Where a message for `dest` from `source` is before an iteration. -/
def route (tables : ℕ → RouteTable) (dest source : ℕ) : ℕ → ℕ
  | 0 => source
  | iter + 1 => (tables (route tables dest source iter)).hop dest iter

namespace BoardShape

/-- The number of ranks that take part. -/
def numRanks (shape : BoardShape) : ℕ :=
  shape.numBoard * shape.boardSize

/-- Every rank has its own iterations in its table. -/
def Holds (shape : BoardShape) (tables : ℕ → RouteTable) : Prop :=
  ∀ rank < shape.numRanks, (tables rank).totalIter = shape.numIterations ∧
    ∀ index iteration, (shape.iterations rank)[index]? = some iteration →
      (tables rank).Entry index iteration

variable {shape : BoardShape} {tables : ℕ → RouteTable} {rank dest source : ℕ}

/-- The tables that the ranks calculate from empty ones. -/
theorem exists_holds (factored : shape.Factored) (fits : shape.numRanks ≤ maxNprocs)
    {start : ℕ → RouteTable} (empty : ∀ rank < shape.numRanks, (start rank).totalIter = 0) :
    ∃ tables, (∀ rank < shape.numRanks, shape.generate rank (start rank) = some (tables rank)) ∧
      shape.Holds tables := by
  have each (rank : ℕ) : ∃ table, rank < shape.numRanks →
      shape.generate rank (start rank) = some table ∧
        RouteTable.Extends (shape.iterations rank) (start rank) table := by
    by_cases below : rank < shape.numRanks
    · obtain ⟨table, generated, extended⟩ := exists_generate factored fits (empty rank below) rank
      exact ⟨table, fun _ => ⟨generated, extended⟩⟩
    · exact ⟨start rank, fun inside => absurd inside below⟩
  choose tables generated using each
  refine ⟨tables, fun rank below => (generated rank below).1, ?_⟩
  intro rank below
  obtain ⟨total, entry⟩ := (generated rank below).2.of_empty (empty rank below)
  exact ⟨total.trans (length_iterations shape rank), fun index iteration => entry⟩

theorem boardSize_pos (factored : shape.Factored) : 0 < shape.boardSize := by
  rw [factored.boardSize]
  exact shape.places.product_pos

/-- The ranks make whole turns of a digit between the boards. -/
theorem base_inter_dvd (factored : shape.Factored) {index size : ℕ}
    (listed : shape.boards.radices[index]? = some size) :
    shape.boards.base index * shape.boardSize * size ∣ shape.numRanks := by
  refine ⟨(shape.boards.radices.drop (index + 1)).prod, ?_⟩
  rw [numRanks, factored.numBoard, ← Factor.base_mul_size_mul listed, Nat.mul_right_comm,
    Nat.mul_right_comm _ size]

/-- The ranks make whole turns of a digit on a board. -/
theorem base_intra_dvd (factored : shape.Factored) {index size : ℕ}
    (listed : shape.places.radices[index]? = some size) :
    shape.places.base index * size ∣ shape.numRanks := by
  rw [numRanks, factored.boardSize, ← Factor.base_mul_size_mul listed]
  exact Dvd.dvd.mul_left (Nat.dvd_mul_right _ _) _

/-- Replacing a digit by that of the destination leaves a number below the product. -/
theorem setDigit_base_lt {factor : Factor} {index size number : ℕ}
    (listed : factor.radices[index]? = some size) (below : number < factor.product) (dest : ℕ) :
    MixedRadix.setDigit (factor.base index) size number
      (MixedRadix.digit (factor.base index) size dest) < factor.product := by
  have sizePositive := (Factor.mem_radices (List.mem_of_getElem? listed)).1
  have small := @MixedRadix.digit_lt (factor.base index) size dest (by omega)
  have turns : factor.base index * size ∣ factor.product :=
    ⟨_, (Factor.base_mul_size_mul listed).symm⟩
  exact MixedRadix.setDigit_lt (factor.base_pos index) small turns below

/-- A place on a board is below its size. -/
theorem place_lt {board place boards size : ℕ} (boardBelow : board < boards)
    (placeBelow : place < size) : board * size + place < boards * size := by
  calc board * size + place < board * size + size := by omega
    _ = (board + 1) * size := by rw [Nat.add_mul, Nat.one_mul]
    _ ≤ boards * size := Nat.mul_le_mul_right _ boardBelow

theorem place_div {board place size : ℕ} (placeBelow : place < size) :
    (board * size + place) / size = board := by
  rw [Nat.mul_comm, Nat.mul_add_div (by omega), Nat.div_eq_of_lt placeBelow, Nat.add_zero]

theorem place_mod {board place size : ℕ} (placeBelow : place < size) :
    (board * size + place) % size = place := by
  rw [Nat.mul_comm, Nat.mul_add_mod, Nat.mod_eq_of_lt placeBelow]

theorem board_lt (below : rank < shape.numRanks) : rank / shape.boardSize < shape.numBoard := by
  apply Nat.div_lt_of_lt_mul
  rw [Nat.mul_comm]
  exact below

/-- An iteration between the boards replaces a digit of the board. -/
theorem hop_inter (holds : shape.Holds tables) (below : rank < shape.numRanks) {index size : ℕ}
    (listed : shape.boards.radices[index]? = some size) :
    (tables rank).hop dest index =
      MixedRadix.setDigit (shape.boards.base index) size
          (rank / shape.boardSize)
          (MixedRadix.digit (shape.boards.base index) size
            (dest / shape.boardSize)) * shape.boardSize + rank % shape.boardSize := by
  have stored := (holds rank below).2 index _ (iterations_getElem?_inter shape rank listed)
  have positive := (Factor.mem_radices (List.mem_of_getElem? listed)).1
  rw [RouteTable.hop, stored.base, stored.size, stored.next _ (Nat.mod_lt _ (by
    simp only [interBoard]
    omega)), MixedRadix.digit_div]
  rfl

/-- An iteration on a board replaces a digit of the place there. -/
theorem hop_intra (factored : shape.Factored) (holds : shape.Holds tables)
    (below : rank < shape.numRanks) {index size : ℕ}
    (listed : shape.places.radices[index]? = some size) :
    (tables rank).hop dest (shape.boards.radices.length + index) =
      rank / shape.boardSize * shape.boardSize +
        MixedRadix.setDigit (shape.places.base index) size
          (rank % shape.boardSize)
          (MixedRadix.digit (shape.places.base index) size
            (dest % shape.boardSize)) := by
  have stored := (holds rank below).2 _ _ (iterations_getElem?_intra shape rank listed)
  have positive := (Factor.mem_radices (List.mem_of_getElem? listed)).1
  have digits := @MixedRadix.digit_mod _ size dest (shape.places.base_pos
    index) (shape.places.radices.drop (index + 1)).prod
  rw [Factor.base_mul_size_mul listed, ← factored.boardSize] at digits
  rw [RouteTable.hop, stored.base, stored.size, stored.next _ (Nat.mod_lt _ (by
    simp only [intraBoard]
    omega)), digits]
  rfl

/-- Where a message is before an iteration between the boards. -/
theorem route_inter (factored : shape.Factored) (holds : shape.Holds tables)
    (sourceBelow : source < shape.numRanks) {iter : ℕ}
    (early : iter ≤ shape.boards.radices.length) :
    route tables dest source iter < shape.numRanks ∧
      route tables dest source iter % shape.boardSize = source % shape.boardSize ∧
      MixedRadix.Between (shape.boards.base iter)
        (source / shape.boardSize) (dest / shape.boardSize)
        (route tables dest source iter / shape.boardSize) := by
  induction iter with
  | zero => exact ⟨sourceBelow, rfl, .start _ _⟩
  | succ iter ih =>
      obtain ⟨inside, place, between⟩ := ih (Nat.le_of_succ_le early)
      have listed := List.getElem?_eq_getElem (Nat.lt_of_succ_le early)
      have sizePositive := (Factor.mem_radices (List.mem_of_getElem? listed)).1
      have rest := Nat.mod_lt (route tables dest source iter) (boardSize_pos factored)
      have board := board_lt inside
      rw [factored.numBoard] at board
      have moved := setDigit_base_lt listed board (dest / shape.boardSize)
      rw [← factored.numBoard] at moved
      rw [route, hop_inter holds inside listed]
      refine ⟨place_lt moved rest, ?_, ?_⟩
      · rw [place_mod rest, place]
      · rw [place_div rest, Factor.base_succ listed]
        exact between.replace (shape.boards.base_pos iter) (by omega)

/-- After the iterations between the boards a message is on the board of its destination. -/
theorem route_board (factored : shape.Factored) (holds : shape.Holds tables)
    (sourceBelow : source < shape.numRanks) (destBelow : dest < shape.numRanks) :
    route tables dest source shape.boards.radices.length / shape.boardSize =
      dest / shape.boardSize := by
  have between := (@route_inter _ _ dest _ factored holds sourceBelow _ le_rfl).2.2
  rw [Factor.base_length, ← factored.numBoard] at between
  exact between.eq_target (board_lt sourceBelow) (board_lt destBelow)

/-- Where a message is before an iteration on the board of its destination. -/
theorem route_intra (factored : shape.Factored) (holds : shape.Holds tables)
    (sourceBelow : source < shape.numRanks) (destBelow : dest < shape.numRanks) {iter : ℕ}
    (early : iter ≤ shape.places.radices.length) :
    route tables dest source (shape.boards.radices.length + iter) /
        shape.boardSize = dest / shape.boardSize ∧
      MixedRadix.Between (shape.places.base iter)
        (source % shape.boardSize) (dest % shape.boardSize)
        (route tables dest source (shape.boards.radices.length + iter) %
          shape.boardSize) := by
  induction iter with
  | zero =>
      have start := @route_inter _ _ dest _ factored holds sourceBelow _ le_rfl
      refine ⟨route_board factored holds sourceBelow destBelow, ?_⟩
      rw [Nat.add_zero, start.2.1]
      exact .start _ _
  | succ iter ih =>
      obtain ⟨board, between⟩ := ih (Nat.le_of_succ_le early)
      have listed := List.getElem?_eq_getElem (Nat.lt_of_succ_le early)
      have sizePositive := (Factor.mem_radices (List.mem_of_getElem? listed)).1
      have rest := Nat.mod_lt (route tables dest source (shape.boards.radices.length + iter))
        (boardSize_pos factored)
      have inside : route tables dest source
          (shape.boards.radices.length + iter) < shape.numRanks := by
        rw [← Nat.div_add_mod' (route tables dest source _) shape.boardSize, board]
        exact place_lt (board_lt destBelow) rest
      have place := rest
      rw [factored.boardSize] at place
      have moved := setDigit_base_lt listed place (dest % shape.boardSize)
      rw [← factored.boardSize] at moved
      rw [← Nat.add_assoc, route, hop_intra factored holds inside listed]
      refine ⟨?_, ?_⟩
      · rw [place_div moved, board]
      · rw [place_mod moved, Factor.base_succ listed]
        exact between.replace (shape.places.base_pos iter) (by omega)

/-- Before the last iteration too a message is at one of the ranks that take part. -/
theorem route_lt (factored : shape.Factored) (holds : shape.Holds tables)
    (sourceBelow : source < shape.numRanks) (destBelow : dest < shape.numRanks) {iter : ℕ}
    (early : iter ≤ shape.numIterations) : route tables dest source iter < shape.numRanks := by
  by_cases between : iter ≤ shape.boards.radices.length
  · exact (route_inter factored holds sourceBelow between).1
  · rw [numIterations] at early
    have onBoard := (@route_intra _ _ dest _ factored holds sourceBelow destBelow
      (iter - shape.boards.radices.length) (by omega)).1
    rw [show shape.boards.radices.length + (iter - shape.boards.radices.length) = iter by omega]
      at onBoard
    rw [← Nat.div_add_mod' (route tables dest source iter) shape.boardSize, onBoard]
    exact place_lt (board_lt destBelow) (Nat.mod_lt _ (boardSize_pos factored))

end BoardShape

open BoardShape

/-- **The route table routes every message home.** The tables that the ranks calculate
from empty ones lead every message to its destination by the last iteration, along ranks
that take part. After the iterations between the boards it is on the board of its
destination, and it never leaves it again. -/
theorem route_table_routes_home (shape : BoardShape) (factored : shape.Factored)
    (fits : shape.numBoard * shape.boardSize ≤ maxNprocs) (start : ℕ → RouteTable)
    (empty : ∀ rank, (start rank).totalIter = 0) :
    ∃ tables : ℕ → RouteTable,
      (∀ rank < shape.numBoard * shape.boardSize,
        shape.generate rank (start rank) = some (tables rank) ∧
          (tables rank).totalIter = shape.boards.radices.length + shape.places.radices.length) ∧
      ∀ source < shape.numBoard * shape.boardSize, ∀ dest < shape.numBoard * shape.boardSize,
        route tables dest source (shape.boards.radices.length + shape.places.radices.length) =
            dest ∧
          (∀ iter, shape.boards.radices.length ≤ iter →
            iter ≤ shape.boards.radices.length + shape.places.radices.length →
              route tables dest source iter / shape.boardSize = dest / shape.boardSize) ∧
          ∀ iter ≤ shape.boards.radices.length + shape.places.radices.length,
            route tables dest source iter < shape.numBoard * shape.boardSize := by
  obtain ⟨tables, generated, holds⟩ := exists_holds factored fits fun rank _ => empty rank
  refine ⟨tables, fun rank below => ⟨generated rank below, (holds rank below).1⟩, ?_⟩
  intro source sourceBelow dest destBelow
  have onBoard {iter : ℕ} (early : iter ≤ shape.places.radices.length) :=
    route_intra factored holds sourceBelow destBelow early
  refine ⟨?_, ?_, ?_⟩
  · obtain ⟨board, between⟩ := onBoard le_rfl
    rw [Factor.base_length, ← factored.boardSize] at between
    have place := between.eq_target (Nat.mod_lt _ (boardSize_pos factored))
      (Nat.mod_lt _ (boardSize_pos factored))
    rw [← Nat.div_add_mod' (route tables dest source _) shape.boardSize, board, place,
      Nat.div_add_mod']
  · intro iter late early
    have board := (@onBoard (iter - shape.boards.radices.length) (by omega)).1
    rwa [show shape.boards.radices.length + (iter - shape.boards.radices.length) = iter by omega]
      at board
  · intro iter early
    exact route_lt factored holds sourceBelow destBelow early

/-- Six boards of twenty ranks. -/
def sixBoards : BoardShape where
  numBoard := 6
  numBoardFactorized := ⟨6, 1, 1, 0⟩
  boardSize := 20
  boardSizeFactorized := ⟨20, 2, 0, 1⟩

/-- The static table before the first shuffle. -/
def RouteTable.init : RouteTable where
  totalIter := 0
  iterGroupBase _ := 0
  iterGroupSize _ := 0
  successiveRank _ _ := 0

theorem RouteTable.init_empty : RouteTable.init.totalIter = 0 := rfl

/-- On six boards of twenty ranks every message gets home in five iterations. -/
theorem route_table_routes_home_six : ∃ tables : ℕ → RouteTable,
    (∀ rank < 120, sixBoards.generate rank .init = some (tables rank)) ∧
      ∀ source < 120, ∀ dest < 120, route tables dest source 5 = dest := by
  obtain ⟨tables, generated, home⟩ := route_table_routes_home sixBoards ⟨rfl, rfl⟩ (by decide)
    (fun _ => .init) fun _ => rfl
  refine ⟨tables, fun rank below => (generated rank below).1, ?_⟩
  intro source sourceBelow dest destBelow
  exact (home source sourceBelow dest destBelow).1

end Ympi.Shuffle
