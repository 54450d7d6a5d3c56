import Ympi.Foundation.MixedRadix
import Ympi.Shuffle.Factors
import Mathlib.Logic.Function.Basic

/-! # The route table

Each iteration of a shuffle replaces one digit of the position of a message: first the
digits of the number of its board, then those of its place on the board. The route table
of a rank holds for each iteration the ranks that differ from it in this digit only.

The table is static and is not reset between two shuffles. A write outside its arrays is
an error. All numbers stay below the number of ranks, which an `int` holds.
-/

namespace Ympi.Shuffle

open Foundation

/-- `MAX_NPROCS`. -/
def maxNprocs : ℕ := 4 * 40 * 1024

/-- `MAX_NUM_ITER`. -/
def maxNumIter : ℕ := 20

/-- `MAX_GROUP_SIZE`. -/
def maxGroupSize : ℕ := 6

/-- The part of `YMPID_Topology` that is the same on all ranks. -/
structure BoardShape where
  numBoard : ℕ
  numBoardFactorized : Factorized
  boardSize : ℕ
  boardSizeFactorized : Factorized

/-- The boards are a number with its stored exponents, and so are the ranks of each. -/
structure BoardShape.Factored (shape : BoardShape) : Prop where
  numBoard : shape.numBoard = shape.numBoardFactorized.factor.product
  boardSize : shape.boardSize = shape.boardSizeFactorized.factor.product

/-- The static variables of the route table. -/
structure RouteTable where
  totalIter : ℕ
  iterGroupBase : ℕ → ℕ
  iterGroupSize : ℕ → ℕ
  successiveRank : ℕ → ℕ → ℕ

/-- What one turn of a generator stores: the entries `next p` for `p` below `size`. -/
structure Iteration where
  base : ℕ
  size : ℕ
  next : ℕ → ℕ

namespace RouteTable

/-- Store an iteration at the end of the table. -/
def record (table : RouteTable) (iteration : Iteration) : Option RouteTable :=
  if table.totalIter < maxNumIter ∧ iteration.size ≤ maxGroupSize then
    some {
      totalIter := table.totalIter + 1
      iterGroupBase := Function.update table.iterGroupBase table.totalIter iteration.base
      iterGroupSize := Function.update table.iterGroupSize table.totalIter iteration.size
      successiveRank := Function.update table.successiveRank table.totalIter fun p =>
        if p < iteration.size then iteration.next p
        else table.successiveRank table.totalIter p }
  else none

/-- The loop of a generator: `count` more turns with the same group size. -/
def genIters (iteration : ℕ → Iteration) (groupSize : ℕ) :
    ℕ → ℕ → RouteTable → Option (ℕ × RouteTable)
  | 0, groupBase, table => some (groupBase, table)
  | count + 1, groupBase, table => do
      let table ← table.record (iteration groupBase)
      genIters iteration groupSize count (groupBase * groupSize) table

end RouteTable

namespace BoardShape

variable (shape : BoardShape) (rank : ℕ)

/-- The exponents of the number of boards. -/
abbrev boards : Factor :=
  shape.numBoardFactorized.factor

/-- The exponents of the number of places on a board. -/
abbrev places : Factor :=
  shape.boardSizeFactorized.factor

/-- A turn of `GEN_ITERS_INTER_BOARD`. -/
def interBoard (groupSize groupBase : ℕ) : Iteration where
  base := groupBase * shape.boardSize
  size := groupSize
  next p :=
    let myBoardId := rank / shape.boardSize
    let nextBoardId := myBoardId / (groupBase * groupSize) * (groupBase * groupSize) +
      p * groupBase + myBoardId % groupBase
    nextBoardId * shape.boardSize + rank % shape.boardSize

/-- A turn of `GEN_ITERS_INTRA_BOARD`. -/
def intraBoard (groupSize groupBase : ℕ) : Iteration where
  base := groupBase
  size := groupSize
  next p :=
    let myBoardOf := rank % shape.boardSize
    let nextBoardOf := myBoardOf / (groupBase * groupSize) * (groupBase * groupSize) +
      p * groupBase + myBoardOf % groupBase
    rank / shape.boardSize * shape.boardSize + nextBoardOf

/-- `GEN_ITERS_INTER_BOARD`. -/
def genItersInterBoard (factorId : Fin 3) (groupBase : ℕ) (table : RouteTable) :
    Option (ℕ × RouteTable) :=
  RouteTable.genIters (shape.interBoard rank (validFactor factorId)) (validFactor factorId)
    (shape.boards.n factorId) groupBase table

/-- `GEN_ITERS_INTRA_BOARD`. -/
def genItersIntraBoard (factorId : Fin 3) (groupBase : ℕ) (table : RouteTable) :
    Option (ℕ × RouteTable) :=
  RouteTable.genIters (shape.intraBoard rank (validFactor factorId)) (validFactor factorId)
    (shape.places.n factorId) groupBase table

/-- The block of generators between the boards. -/
def genInterBoard (table : RouteTable) : Option (ℕ × RouteTable) := do
  let (groupBase, table) ← shape.genItersInterBoard rank 0 1 table
  let (groupBase, table) ← shape.genItersInterBoard rank 1 groupBase table
  shape.genItersInterBoard rank 2 groupBase table

/-- The block of generators on a board. -/
def genIntraBoard (table : RouteTable) : Option (ℕ × RouteTable) := do
  let (groupBase, table) ← shape.genItersIntraBoard rank 0 1 table
  let (groupBase, table) ← shape.genItersIntraBoard rank 1 groupBase table
  shape.genItersIntraBoard rank 2 groupBase table

/-- The table of `rank` after `YMPI_Shuffle` has calculated its routes. -/
def generate (table : RouteTable) : Option RouteTable := do
  let (_, table) ← shape.genInterBoard rank table
  let (_, table) ← shape.genIntraBoard rank table
  return table

/-- The iterations between the boards. -/
def interIterations : List Iteration :=
  (MixedRadix.positions 1 shape.boards.radices).map fun position =>
    shape.interBoard rank position.2 position.1

/-- The iterations on a board. -/
def intraIterations : List Iteration :=
  (MixedRadix.positions 1 shape.places.radices).map fun position =>
    shape.intraBoard rank position.2 position.1

/-- All iterations of a shuffle. -/
def iterations : List Iteration :=
  shape.interIterations rank ++ shape.intraIterations rank

end BoardShape

namespace RouteTable

/-- Store iterations one after another. -/
def recordAll : List Iteration → RouteTable → Option RouteTable
  | [], table => some table
  | iteration :: rest, table => table.record iteration >>= recordAll rest

theorem recordAll_append (front back : List Iteration) (table : RouteTable) :
    recordAll (front ++ back) table = recordAll front table >>= recordAll back := by
  induction front generalizing table with
  | nil => rfl
  | cons iteration rest ih =>
      simp only [List.cons_append, recordAll]
      cases table.record iteration with
      | none => rfl
      | some next => exact ih next

/-- A generator stores the iterations at its positions. -/
theorem genIters_eq (iteration : ℕ → Iteration) (groupSize count groupBase : ℕ)
    (table : RouteTable) : genIters iteration groupSize count groupBase table =
      (recordAll ((MixedRadix.positions groupBase (List.replicate count groupSize)).map
        fun position => iteration position.1) table).map
          fun table => (groupBase * groupSize ^ count, table) := by
  induction count generalizing groupBase table with
  | zero => simp [genIters, MixedRadix.positions, recordAll]
  | succ count ih =>
      simp only [genIters, List.replicate_succ, MixedRadix.positions, List.map_cons, recordAll]
      cases table.record (iteration groupBase) with
      | none => rfl
      | some next =>
          have power : groupBase * groupSize * groupSize ^ count =
              groupBase * groupSize ^ (count + 1) := by
            rw [Nat.pow_succ', Nat.mul_assoc]
          have rest := ih (groupBase * groupSize) next
          rw [power] at rest
          exact rest

/-- The positions of a digit repeated have its size. -/
theorem map_positions_replicate (iteration : ℕ → ℕ → Iteration) (size count base : ℕ) :
    (MixedRadix.positions base (List.replicate count size)).map
        (fun position => iteration position.2 position.1) =
      (MixedRadix.positions base (List.replicate count size)).map
        fun position => iteration size position.1 := by
  induction count generalizing base with
  | zero => rfl
  | succ count ih => simp only [List.replicate_succ, MixedRadix.positions, List.map_cons, ih]

/-- The generators of one phase store the iterations at the positions of its factors. -/
theorem genIters_phase (iteration : ℕ → ℕ → Iteration) (factor : Factor) (table : RouteTable) :
    (do
      let (groupBase, table) ← genIters (iteration (validFactor 0)) (validFactor 0) (factor.n 0) 1
        table
      let (groupBase, table) ← genIters (iteration (validFactor 1)) (validFactor 1) (factor.n 1)
        groupBase table
      genIters (iteration (validFactor 2)) (validFactor 2) (factor.n 2) groupBase table) =
      (recordAll ((MixedRadix.positions 1 factor.radices).map
        fun position => iteration position.2 position.1) table).map
          fun table => (factor.product, table) := by
  have listed : factor.radices = List.replicate (factor.n 0) (validFactor 0) ++
      List.replicate (factor.n 1) (validFactor 1) ++
        List.replicate (factor.n 2) (validFactor 2) := rfl
  rw [listed, MixedRadix.positions_append, MixedRadix.positions_append, List.map_append,
    List.map_append, recordAll_append, recordAll_append, map_positions_replicate,
    map_positions_replicate, map_positions_replicate]
  simp only [genIters_eq, List.prod_append, List.prod_replicate, Nat.one_mul]
  cases recordAll _ table with
  | none => rfl
  | some second =>
      simp only [Option.map_some, Option.bind_eq_bind, Option.bind_some]
      cases recordAll _ second with
      | none => rfl
      | some third => rfl

/-- Entry `index` of the table is the iteration. -/
structure Entry (table : RouteTable) (index : ℕ) (iteration : Iteration) : Prop where
  base : table.iterGroupBase index = iteration.base
  size : table.iterGroupSize index = iteration.size
  next : ∀ p < iteration.size, table.successiveRank index p = iteration.next p

/-- The table `after` is `before` with the iterations at its end. -/
structure Extends (iterations : List Iteration) (before after : RouteTable) : Prop where
  total : after.totalIter = before.totalIter + iterations.length
  kept : ∀ index < before.totalIter, ∀ iteration, before.Entry index iteration →
    after.Entry index iteration
  added : ∀ index iteration, iterations[index]? = some iteration →
    after.Entry (before.totalIter + index) iteration

/-- A table that was empty holds the iterations and no other ones. -/
theorem Extends.of_empty {iterations : List Iteration} {before after : RouteTable}
    (extends' : Extends iterations before after) (empty : before.totalIter = 0) :
    after.totalIter = iterations.length ∧ ∀ {index : ℕ} {iteration : Iteration},
      iterations[index]? = some iteration → after.Entry index iteration := by
  refine ⟨?_, ?_⟩
  · rw [extends'.total, empty, Nat.zero_add]
  · intro index iteration listed
    have added := extends'.added index iteration listed
    rwa [empty, Nat.zero_add] at added

/-- A stored iteration is at the end of the table, and the others stay. -/
theorem record_ok {table : RouteTable} {iteration : Iteration}
    (room : table.totalIter < maxNumIter) (fits : iteration.size ≤ maxGroupSize) :
    ∃ after, table.record iteration = some after ∧ after.totalIter = table.totalIter + 1 ∧
      (∀ index < table.totalIter, ∀ other, table.Entry index other → after.Entry index other) ∧
      after.Entry table.totalIter iteration := by
  refine ⟨_, if_pos ⟨room, fits⟩, rfl, ?_, ?_⟩
  · intro index below other entry
    have apart : index ≠ table.totalIter := by omega
    refine ⟨?_, ?_, ?_⟩
    · exact (Function.update_of_ne apart ..).trans entry.base
    · exact (Function.update_of_ne apart ..).trans entry.size
    · intro p small
      exact (congrFun (Function.update_of_ne apart ..) p).trans (entry.next p small)
  · refine ⟨Function.update_self .., Function.update_self .., ?_⟩
    intro p small
    change Function.update table.successiveRank table.totalIter _ table.totalIter p = _
    rw [Function.update_self, if_pos small]

/-- Iterations that fit into the table are all stored. -/
theorem recordAll_ok {iterations : List Iteration} {table : RouteTable}
    (room : table.totalIter + iterations.length ≤ maxNumIter)
    (fits : ∀ iteration ∈ iterations, iteration.size ≤ maxGroupSize) :
    ∃ after, recordAll iterations table = some after ∧ Extends iterations table after := by
  induction iterations generalizing table with
  | nil => exact ⟨table, rfl, rfl, fun _ _ _ entry => entry, fun index _ listed => by simp at listed⟩
  | cons iteration rest ih =>
      rw [List.length_cons] at room
      obtain ⟨next, recorded, total, kept, last⟩ :=
        @record_ok table iteration (by omega) (fits iteration List.mem_cons_self)
      obtain ⟨after, stored, extends'⟩ := @ih next (by omega) fun other member =>
        fits other (List.mem_cons_of_mem _ member)
      refine ⟨after, by rw [recordAll, recorded]; exact stored, ?_, ?_, ?_⟩
      · rw [extends'.total, total, List.length_cons]
        omega
      · intro index below other entry
        exact extends'.kept index (by omega) other (kept index below other entry)
      · intro index other listed
        cases index with
        | zero =>
            cases listed
            exact extends'.kept _ (by omega) _ last
        | succ index =>
            have added := extends'.added index other listed
            rw [total] at added
            rwa [show table.totalIter + (index + 1) = table.totalIter + 1 + index by omega]

end RouteTable

namespace BoardShape

variable (shape : BoardShape) (rank : ℕ)

/-- The route table holds the iterations in order. -/
theorem generate_eq (table : RouteTable) :
    shape.generate rank table = RouteTable.recordAll (shape.iterations rank) table := by
  have inter : shape.genInterBoard rank table = _ :=
    RouteTable.genIters_phase (shape.interBoard rank) _ table
  have intra (table : RouteTable) : shape.genIntraBoard rank table = _ :=
    RouteTable.genIters_phase (shape.intraBoard rank) _ table
  rw [iterations, RouteTable.recordAll_append, interIterations, generate, inter]
  cases RouteTable.recordAll _ table with
  | none => rfl
  | some between =>
      simp only [Option.map_some, Option.bind_eq_bind, Option.bind_some, intra]
      rw [intraIterations]
      cases RouteTable.recordAll _ between with
      | none => rfl
      | some table => rfl

/-- Between the boards the base of an iteration is the product of the sizes before it. -/
theorem interIterations_getElem? (index : ℕ) :
    (shape.interIterations rank)[index]? =
      shape.boards.radices[index]?.map fun size =>
        shape.interBoard rank size (shape.boards.base index) := by
  rw [interIterations, List.getElem?_map, MixedRadix.positions_getElem?, Option.map_map]
  simp only [Nat.one_mul]
  rfl

/-- On a board the base of an iteration is the product of the sizes before it. -/
theorem intraIterations_getElem? (index : ℕ) :
    (shape.intraIterations rank)[index]? =
      shape.places.radices[index]?.map fun size =>
        shape.intraBoard rank size (shape.places.base index) := by
  rw [intraIterations, List.getElem?_map, MixedRadix.positions_getElem?, Option.map_map]
  simp only [Nat.one_mul]
  rfl

theorem length_interIterations :
    (shape.interIterations rank).length = shape.boards.radices.length := by
  rw [interIterations, List.length_map, MixedRadix.positions_length]

theorem length_intraIterations :
    (shape.intraIterations rank).length = shape.places.radices.length := by
  rw [intraIterations, List.length_map, MixedRadix.positions_length]

/-- The iterations between the boards come first. -/
theorem iterations_getElem?_inter {index size : ℕ}
    (listed : shape.boards.radices[index]? = some size) :
    (shape.iterations rank)[index]? =
      some (shape.interBoard rank size (shape.boards.base index)) := by
  have below : index < (shape.interIterations rank).length := by
    rw [length_interIterations]
    exact (List.getElem?_eq_some_iff.mp listed).1
  rw [iterations, List.getElem?_append_left below, interIterations_getElem?, listed]
  rfl

/-- The iterations on a board follow those between the boards. -/
theorem iterations_getElem?_intra {index size : ℕ}
    (listed : shape.places.radices[index]? = some size) :
    (shape.iterations rank)[shape.boards.radices.length + index]? =
      some (shape.intraBoard rank size (shape.places.base index)) := by
  rw [← length_interIterations shape rank, iterations,
    List.getElem?_append_right (Nat.le_add_right _ _), Nat.add_sub_cancel_left,
    intraIterations_getElem?, listed]
  rfl

/-- An iteration between the boards replaces a digit of the rank. -/
theorem interBoard_next (size base p : ℕ) :
    (shape.interBoard rank size base).next p =
      MixedRadix.setDigit (base * shape.boardSize) size rank p :=
  MixedRadix.setDigit_div_mul shape.boardSize

/-- An iteration on a board replaces a digit of the rank. -/
theorem intraBoard_next (factored : shape.Factored) {index size : ℕ}
    (listed : shape.places.radices[index]? = some size) (p : ℕ) :
    (shape.intraBoard rank size (shape.places.base index)).next p =
      MixedRadix.setDigit (shape.places.base index) size rank p := by
  have whole := @MixedRadix.setDigit_mod_add (shape.places.base index) size rank p
    (shape.places.radices.drop (index + 1)).prod
  rw [Factor.base_mul_size_mul listed, ← factored.boardSize] at whole
  exact whole

/-- The number of iterations, which is the same on all ranks. -/
def numIterations : ℕ :=
  shape.boards.radices.length + shape.places.radices.length

theorem length_iterations : (shape.iterations rank).length = shape.numIterations := by
  rw [iterations, List.length_append, length_interIterations, length_intraIterations, numIterations]

/-- An iteration is one between the boards or one on a board. -/
theorem iterations_cases {iteration : Iteration} (member : iteration ∈ shape.iterations rank) :
    (∃ index size, shape.boards.radices[index]? = some size ∧
      iteration = shape.interBoard rank size (shape.boards.base index)) ∨
    ∃ index size, shape.places.radices[index]? = some size ∧
      iteration = shape.intraBoard rank size (shape.places.base index) := by
  rw [iterations] at member
  rcases List.mem_append.mp member with inter | intra
  · obtain ⟨index, listed⟩ := List.mem_iff_getElem?.mp inter
    rw [interIterations_getElem?, Option.map_eq_some_iff] at listed
    obtain ⟨size, radix, same⟩ := listed
    exact Or.inl ⟨index, size, radix, same.symm⟩
  · obtain ⟨index, listed⟩ := List.mem_iff_getElem?.mp intra
    rw [intraIterations_getElem?, Option.map_eq_some_iff] at listed
    obtain ⟨size, radix, same⟩ := listed
    exact Or.inr ⟨index, size, radix, same.symm⟩

/-- The groups of every iteration have two, three or five members. -/
theorem iteration_size {iteration : Iteration} (member : iteration ∈ shape.iterations rank) :
    2 ≤ iteration.size ∧ iteration.size ≤ 5 := by
  rcases shape.iterations_cases rank member with ⟨_, _, radix, rfl⟩ | ⟨_, _, radix, rfl⟩
  · exact Factor.mem_radices (List.mem_of_getElem? radix)
  · exact Factor.mem_radices (List.mem_of_getElem? radix)

variable {shape}

/-- Every iteration at least doubles the number of ranks. -/
theorem two_pow_numIterations_le (factored : shape.Factored) :
    2 ^ shape.numIterations ≤ shape.numBoard * shape.boardSize := by
  rw [numIterations, Nat.pow_add, factored.numBoard, factored.boardSize]
  exact Nat.mul_le_mul (Factor.two_pow_le _) (Factor.two_pow_le _)

/-- The iterations of all topologies with up to `MAX_NPROCS` ranks fit into the table. -/
theorem numIterations_lt (factored : shape.Factored)
    (fits : shape.numBoard * shape.boardSize ≤ maxNprocs) : shape.numIterations < 18 := by
  rw [← Nat.pow_lt_pow_iff_right (show 1 < 2 by decide)]
  exact ((two_pow_numIterations_le factored).trans fits).trans_lt (by decide)

/-- **The route table.** Starting from an empty table every rank stores its iterations. -/
theorem exists_generate (factored : shape.Factored)
    (fits : shape.numBoard * shape.boardSize ≤ maxNprocs) {start : RouteTable}
    (empty : start.totalIter = 0) (rank : ℕ) :
    ∃ table, shape.generate rank start = some table ∧
      RouteTable.Extends (shape.iterations rank) start table := by
  rw [generate_eq]
  apply RouteTable.recordAll_ok
  · have few := numIterations_lt factored fits
    rw [empty, length_iterations, maxNumIter]
    omega
  · intro iteration member
    have := (iteration_size shape rank member).2
    rw [maxGroupSize]
    omega

end BoardShape

end Ympi.Shuffle
