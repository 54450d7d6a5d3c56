import Ympi.Shuffle.Routing

/-! # The peers of the exchange

The exchange does not use the ranks of the route table. It calculates its peers from the
rank: without its part below the base of the digit, plus the digit that is sent. This is
the rank of the table only if what is missing makes up for what is too much.
-/

namespace Ympi.Shuffle

open Foundation

namespace RouteTable

variable (table : RouteTable) (rank iter : ℕ)

/-- The digit `my_id` of a rank in an iteration. -/
def myId : ℕ :=
  rank / table.iterGroupBase iter % table.iterGroupSize iter

/-- The peer `q` to which the exchange sends the messages with digit `id`. -/
def peer (id : ℕ) : ℕ :=
  rank / table.iterGroupBase iter * table.iterGroupBase iter + id

/-- Both loops of an iteration go over all digits but the own one. -/
def Exchanges (other : ℕ) : Prop :=
  ∃ id < table.iterGroupSize iter, id ≠ table.myId rank iter ∧ table.peer rank iter id = other

/-- The loop with `MPI_Isend`. -/
def SendsTo (other : ℕ) : Prop :=
  table.Exchanges rank iter other

/-- The loop with `MPI_Recv`. -/
def ReceivesFrom (other : ℕ) : Prop :=
  table.Exchanges rank iter other

end RouteTable

namespace BoardShape

variable {shape : BoardShape} {tables : ℕ → RouteTable}

/-- The exchange of every rank agrees with its route table. -/
def Agrees (shape : BoardShape) (tables : ℕ → RouteTable) : Prop :=
  ∀ rank < shape.numRanks, ∀ iter < shape.numIterations,
    ∀ id < (tables rank).iterGroupSize iter, id ≠ (tables rank).myId rank iter →
      (tables rank).peer rank iter id = (tables rank).successiveRank iter id

/-- A rank sends to another one exactly when that one expects to receive from it. -/
def Pairs (shape : BoardShape) (tables : ℕ → RouteTable) : Prop :=
  ∀ iter < shape.numIterations, ∀ rank < shape.numRanks, ∀ other < shape.numRanks,
    (tables rank).SendsTo rank iter other ↔ (tables other).ReceivesFrom other iter rank

/-- In iteration `iter` all ranks replace the same digit. -/
structure ReplacesDigit (shape : BoardShape) (tables : ℕ → RouteTable) (iter base size : ℕ) :
    Prop where
  basePositive : 0 < base
  members : 2 ≤ size
  divides : base * size ∣ shape.numRanks
  iterGroupBase : ∀ rank < shape.numRanks, (tables rank).iterGroupBase iter = base
  iterGroupSize : ∀ rank < shape.numRanks, (tables rank).iterGroupSize iter = size
  successiveRank : ∀ rank < shape.numRanks, ∀ p < size,
    (tables rank).successiveRank iter p = MixedRadix.setDigit base size rank p

/-- An iteration between the boards replaces a digit of the rank. -/
theorem replacesDigit_inter (factored : shape.Factored) (holds : shape.Holds tables)
    {index size : ℕ} (listed : shape.boards.radices[index]? = some size) :
    shape.ReplacesDigit tables index (shape.boards.base index * shape.boardSize) size := by
  have stored {rank : ℕ} (below : rank < shape.numRanks) :=
    (holds rank below).2 index _ (iterations_getElem?_inter shape rank listed)
  refine ⟨Nat.mul_pos (shape.boards.base_pos index) (boardSize_pos factored),
    (Factor.mem_radices (List.mem_of_getElem? listed)).1, base_inter_dvd factored listed,
    ?_, ?_, ?_⟩
  · intro rank below
    exact (stored below).base
  · intro rank below
    exact (stored below).size
  · intro rank below p small
    exact ((stored below).next p small).trans (interBoard_next shape rank size _ p)

/-- An iteration on a board replaces a digit of the rank. -/
theorem replacesDigit_intra (factored : shape.Factored) (holds : shape.Holds tables)
    {index size : ℕ} (listed : shape.places.radices[index]? = some size) :
    shape.ReplacesDigit tables (shape.boards.radices.length + index) (shape.places.base index)
      size := by
  have stored {rank : ℕ} (below : rank < shape.numRanks) :=
    (holds rank below).2 _ _ (iterations_getElem?_intra shape rank listed)
  refine ⟨shape.places.base_pos index, (Factor.mem_radices (List.mem_of_getElem? listed)).1,
    base_intra_dvd factored listed, ?_, ?_, ?_⟩
  · intro rank below
    exact (stored below).base
  · intro rank below
    exact (stored below).size
  · intro rank below p small
    exact ((stored below).next p small).trans (intraBoard_next shape rank factored listed p)

/-- **Iterations.** Every iteration replaces one digit of the rank. -/
theorem exists_replacesDigit (factored : shape.Factored) (holds : shape.Holds tables) {iter : ℕ}
    (below : iter < shape.numIterations) :
    ∃ base size, shape.ReplacesDigit tables iter base size := by
  rw [numIterations] at below
  by_cases between : iter < shape.boards.radices.length
  · exact ⟨_, _, replacesDigit_inter factored holds (List.getElem?_eq_getElem between)⟩
  · have listed := List.getElem?_eq_getElem
      (show iter - shape.boards.radices.length < shape.places.radices.length by omega)
    have replaces := replacesDigit_intra factored holds listed
    rw [show shape.boards.radices.length + (iter - shape.boards.radices.length) = iter by omega]
      at replaces
    exact ⟨_, _, replaces⟩

/-- Without iterations there is only one rank. -/
theorem numRanks_eq_one (factored : shape.Factored) (none : shape.numIterations = 0) :
    shape.numRanks = 1 := by
  rw [numIterations, Nat.add_eq_zero_iff, List.length_eq_zero_iff, List.length_eq_zero_iff] at none
  rw [numRanks, factored.numBoard, factored.boardSize, ← Factor.prod_radices, none.1,
    ← Factor.prod_radices, none.2]
  rfl

/-- One rank alone exchanges nothing. -/
theorem numIterations_eq_zero (factored : shape.Factored) (alone : shape.numRanks = 1) :
    shape.numIterations = 0 := by
  have doubled : 2 ^ shape.numIterations ≤ shape.numRanks := two_pow_numIterations_le factored
  by_contra some
  have two : 2 ^ 1 ≤ 2 ^ shape.numIterations := Nat.pow_le_pow_right (by decide) (by omega)
  omega

end BoardShape

section Peers

variable {base size rank id : ℕ}

/-- The peer of the exchange is the rank with digit `id` only if what the own digit is
short of makes up for the part below the base. -/
theorem peer_eq_setDigit_iff (positive : 0 < base)
    (other : id ≠ MixedRadix.digit base size rank) :
    rank / base * base + id = MixedRadix.setDigit base size rank id ↔
      MixedRadix.digit base size rank < id ∧
        (id - MixedRadix.digit base size rank) * base + rank % base = id := by
  have low := Nat.mod_lt rank positive
  have digits : rank / base * base = rank / (base * size) * (base * size) +
      MixedRadix.digit base size rank * base := by
    have whole := Nat.div_add_mod' rank base
    have parts := Nat.div_add_mod' rank (base * size)
    rw [MixedRadix.mod_mul_eq] at parts
    omega
  rw [digits, MixedRadix.setDigit]
  rcases Nat.lt_or_gt_of_ne other with above | below
  · have more : (id + 1) * base ≤ MixedRadix.digit base size rank * base :=
      Nat.mul_le_mul_right _ above
    rw [Nat.add_mul] at more
    omega
  · have apart : (id - MixedRadix.digit base size rank) * base +
        MixedRadix.digit base size rank * base = id * base := by
      rw [← Nat.add_mul, Nat.sub_add_cancel below.le]
    omega

end Peers

namespace BoardShape

variable {shape : BoardShape} {tables : ℕ → RouteTable} {iter base size : ℕ}

namespace ReplacesDigit

/-- The ranks whose other digits are all 0. -/
theorem base_lt (replaces : shape.ReplacesDigit tables iter base size)
    (some : 0 < shape.numRanks) : base < shape.numRanks := by
  have whole := Nat.le_of_dvd some replaces.divides
  have twice : base * 2 ≤ base * size := Nat.mul_le_mul_left _ replaces.members
  have positive := replaces.basePositive
  omega

theorem myId_eq (replaces : shape.ReplacesDigit tables iter base size) {rank : ℕ}
    (below : rank < shape.numRanks) :
    (tables rank).myId rank iter = MixedRadix.digit base size rank := by
  rw [RouteTable.myId, replaces.iterGroupBase rank below, replaces.iterGroupSize rank below]
  rfl

/-- When the peer of the exchange is the rank of the table. -/
theorem peer_eq_iff (replaces : shape.ReplacesDigit tables iter base size) {rank id : ℕ}
    (below : rank < shape.numRanks) (small : id < (tables rank).iterGroupSize iter)
    (other : id ≠ (tables rank).myId rank iter) :
    (tables rank).peer rank iter id = (tables rank).successiveRank iter id ↔
      (tables rank).myId rank iter < id ∧
        (id - (tables rank).myId rank iter) * (tables rank).iterGroupBase iter +
          rank % (tables rank).iterGroupBase iter = id := by
  rw [replaces.iterGroupSize rank below] at small
  rw [replaces.myId_eq below] at other
  rw [RouteTable.peer, replaces.myId_eq below, replaces.iterGroupBase rank below,
    replaces.successiveRank rank below id small]
  exact peer_eq_setDigit_iff replaces.basePositive other

/-- In no iteration does the exchange agree with the table: the rank with digit 1 and all
other digits 0 has itself as the peer with digit 0. -/
theorem exists_disagreement (replaces : shape.ReplacesDigit tables iter base size)
    (some : 0 < shape.numRanks) : ∃ rank < shape.numRanks,
      ∃ id < (tables rank).iterGroupSize iter, id ≠ (tables rank).myId rank iter ∧
        (tables rank).peer rank iter id ≠ (tables rank).successiveRank iter id := by
  have below := replaces.base_lt some
  have members := replaces.members
  have own : (tables base).myId base iter = 1 := by
    rw [replaces.myId_eq below, MixedRadix.digit, Nat.div_self replaces.basePositive]
    exact Nat.mod_eq_of_lt (by omega)
  have small : 0 < (tables base).iterGroupSize iter := by
    rw [replaces.iterGroupSize base below]
    omega
  have other : 0 ≠ (tables base).myId base iter := by
    rw [own]
    decide
  refine ⟨base, below, 0, small, other, ?_⟩
  intro same
  have above := ((replaces.peer_eq_iff below small other).mp same).1
  omega

/-- In no iteration do the sends and receives pair up: rank 0 sends to rank 1, which
expects nothing from it. -/
theorem exists_unpaired (replaces : shape.ReplacesDigit tables iter base size)
    (some : 0 < shape.numRanks) : ∃ rank < shape.numRanks, ∃ other < shape.numRanks,
      (tables rank).SendsTo rank iter other ∧ ¬ (tables other).ReceivesFrom other iter rank := by
  have members := replaces.members
  have inside := replaces.base_lt some
  have positive := replaces.basePositive
  have below : 1 < shape.numRanks := by omega
  refine ⟨0, some, 1, below, ⟨1, ?_, ?_, ?_⟩, ?_⟩
  · rw [replaces.iterGroupSize 0 some]
    omega
  · rw [replaces.myId_eq some, MixedRadix.digit, Nat.zero_div, Nat.zero_mod]
    decide
  · rw [RouteTable.peer, Nat.zero_div, Nat.zero_mul]
  · rintro ⟨id, -, other, expects⟩
    rw [replaces.myId_eq below, MixedRadix.digit] at other
    rw [RouteTable.peer, replaces.iterGroupBase 1 below] at expects
    obtain ⟨high, none⟩ := Nat.add_eq_zero_iff.mp expects
    rcases Nat.mul_eq_zero.mp high with turns | zero
    · rw [turns, Nat.zero_mod] at other
      exact other none
    · omega

end ReplacesDigit

end BoardShape

open BoardShape

/-- **The exchange and the route table.** The peer that the exchange of a rank has for a
digit is the rank of its table if and only if `(id - my_id) * group_base + rank % group_base`
is `id` for a digit above the own one. All exchanges agree with the tables, and sends pair
up with receives, if and only if there is just one rank, which exchanges nothing. -/
theorem exchange_agrees_iff (shape : BoardShape) (factored : shape.Factored)
    (fits : shape.numBoard * shape.boardSize ≤ maxNprocs) (start : ℕ → RouteTable)
    (empty : ∀ rank, (start rank).totalIter = 0) :
    ∃ tables : ℕ → RouteTable,
      (∀ rank < shape.numBoard * shape.boardSize,
        shape.generate rank (start rank) = some (tables rank) ∧
          (tables rank).totalIter = shape.numIterations) ∧
      (∀ rank < shape.numBoard * shape.boardSize, ∀ iter < shape.numIterations,
        ∀ id < (tables rank).iterGroupSize iter, id ≠ (tables rank).myId rank iter →
          ((tables rank).peer rank iter id = (tables rank).successiveRank iter id ↔
            (tables rank).myId rank iter < id ∧
              (id - (tables rank).myId rank iter) * (tables rank).iterGroupBase iter +
                rank % (tables rank).iterGroupBase iter = id)) ∧
      (shape.Agrees tables ↔ shape.numBoard * shape.boardSize = 1) ∧
      (shape.Pairs tables ↔ shape.numBoard * shape.boardSize = 1) := by
  obtain ⟨tables, generated, holds⟩ := exists_holds factored fits fun rank _ => empty rank
  have some : 0 < shape.numRanks := by
    rw [numRanks, factored.numBoard, factored.boardSize]
    exact Nat.mul_pos shape.boards.product_pos shape.places.product_pos
  have first (several : shape.numRanks ≠ 1) : 0 < shape.numIterations := by
    by_contra none
    exact several (numRanks_eq_one factored (by omega))
  refine ⟨tables, fun rank below => ⟨generated rank below, (holds rank below).1⟩, ?_, ?_, ?_⟩
  · intro rank below iter early id small other
    obtain ⟨base, size, replaces⟩ := exists_replacesDigit factored holds early
    exact replaces.peer_eq_iff below small other
  · refine ⟨?_, ?_⟩
    · intro agrees
      by_contra several
      obtain ⟨base, size, replaces⟩ := exists_replacesDigit factored holds (first several)
      obtain ⟨rank, below, id, small, other, differs⟩ := replaces.exists_disagreement some
      exact differs (agrees rank below 0 (first several) id small other)
    · intro alone rank _ iter early
      rw [numIterations_eq_zero factored alone] at early
      omega
  · refine ⟨?_, ?_⟩
    · intro pairs
      by_contra several
      obtain ⟨base, size, replaces⟩ := exists_replacesDigit factored holds (first several)
      obtain ⟨rank, below, other, otherBelow, sends, misses⟩ := replaces.exists_unpaired some
      exact misses ((pairs 0 (first several) rank below other otherBelow).mp sends)
    · intro alone iter early
      rw [numIterations_eq_zero factored alone] at early
      omega

/-- The exchanges on six boards of twenty ranks. -/
theorem exchange_agrees_iff_six : ∃ tables : ℕ → RouteTable,
    (∀ rank < 120, sixBoards.generate rank .init = some (tables rank)) ∧
      ¬ sixBoards.Agrees tables ∧ ¬ sixBoards.Pairs tables := by
  obtain ⟨tables, generated, -, agrees, pairs⟩ := exchange_agrees_iff sixBoards ⟨rfl, rfl⟩
    (by decide) (fun _ => .init) fun _ => rfl
  refine ⟨tables, fun rank below => (generated rank below).1, ?_, ?_⟩
  · rw [agrees]
    decide
  · rw [pairs]
    decide

/-- One board of four ranks. -/
def oneBoard : BoardShape where
  numBoard := 1
  numBoardFactorized := ⟨1, 0, 0, 0⟩
  boardSize := 4
  boardSizeFactorized := ⟨4, 2, 0, 0⟩

/-- On one board of four ranks, rank 1 has rank 0 in its table for digit 0 of the first
iteration, but its exchange has rank 1 itself as the peer. Rank 0 sends to rank 1, which
does not expect to receive from it. -/
theorem exchange_disagrees : ∃ first second : RouteTable,
    oneBoard.generate 0 .init = some first ∧ oneBoard.generate 1 .init = some second ∧
      second.iterGroupSize 0 = 2 ∧ second.myId 1 0 = 1 ∧ second.peer 1 0 0 = 1 ∧
      second.successiveRank 0 0 = 0 ∧ first.SendsTo 0 0 1 ∧ ¬ second.ReceivesFrom 1 0 0 := by
  refine ⟨_, _, rfl, rfl, rfl, rfl, rfl, rfl, ⟨1, by decide, by decide, rfl⟩, ?_⟩
  rintro ⟨id, -, -, expects⟩
  have none : 1 + id = 0 := expects
  omega

end Ympi.Shuffle
