import Ympi.Shuffle.Routing

/-! # The layout of the route table

The table of a rank has an iteration for every factor of the number of boards and of their
size. The base of each is the product of the group sizes before it in its phase.
-/

namespace Ympi.Shuffle

open Foundation

/-- The group sizes of the iterations in the table. -/
def RouteTable.groupSizes (table : RouteTable) : List ℕ :=
  (List.range table.totalIter).map table.iterGroupSize

/-- A table that was empty has the sizes of its iterations. -/
theorem RouteTable.Extends.groupSizes {iterations : List Iteration} {before after : RouteTable}
    (extends' : Extends iterations before after) (empty : before.totalIter = 0) :
    after.groupSizes = iterations.map Iteration.size := by
  obtain ⟨total, entry⟩ := extends'.of_empty empty
  apply List.ext_getElem?
  intro index
  rw [RouteTable.groupSizes, total, List.getElem?_map, List.getElem?_map]
  by_cases below : index < iterations.length
  · rw [List.getElem?_range below, List.getElem?_eq_getElem below, Option.map_some,
      Option.map_some, (entry (List.getElem?_eq_getElem below)).size]
  · rw [List.getElem?_eq_none (by simpa using below), List.getElem?_eq_none (by simpa using below)]
    rfl

theorem Factor.length_radices (factor : Factor) :
    factor.radices.length = factor.n0 + factor.n1 + factor.n2 := by
  simp [Factor.radices, Nat.add_assoc]

namespace BoardShape

/-- The group sizes are the factors, first those of the boards. -/
theorem map_size_iterations (shape : BoardShape) (rank : ℕ) :
    (shape.iterations rank).map Iteration.size = shape.boards.radices ++ shape.places.radices := by
  rw [iterations, List.map_append, interIterations, intraIterations, List.map_map, List.map_map]
  exact congrArg₂ _ (MixedRadix.map_snd_positions 1 _) (MixedRadix.map_snd_positions 1 _)

end BoardShape

open BoardShape

/-- **The route table fits and is complete.** No write of its generation is outside the
arrays. The number of iterations is the number of all factors, the product of the group
sizes is the number of ranks, and the base of an iteration is the product of the group sizes
before it in its phase, times the board size between the boards. -/
theorem route_table_complete (shape : BoardShape) (factored : shape.Factored)
    (fits : shape.numBoard * shape.boardSize ≤ maxNprocs) (start : RouteTable)
    (empty : start.totalIter = 0) (rank : ℕ) :
    ∃ table, shape.generate rank start = some table ∧
      table.totalIter = (shape.boards.n0 + shape.boards.n1 + shape.boards.n2) +
        (shape.places.n0 + shape.places.n1 + shape.places.n2) ∧
      table.totalIter ≤ maxNumIter ∧
      (∀ iter < table.totalIter, table.iterGroupSize iter ≤ maxGroupSize) ∧
      table.groupSizes.prod = shape.numBoard * shape.boardSize ∧
      (∀ iter < shape.boards.n0 + shape.boards.n1 + shape.boards.n2,
        table.iterGroupBase iter = shape.boardSize * (table.groupSizes.take iter).prod) ∧
      ∀ iter < shape.places.n0 + shape.places.n1 + shape.places.n2,
        table.iterGroupBase (shape.boards.n0 + shape.boards.n1 + shape.boards.n2 + iter) =
          ((table.groupSizes.drop (shape.boards.n0 + shape.boards.n1 + shape.boards.n2)).take
            iter).prod := by
  obtain ⟨table, generated, extended⟩ := exists_generate factored fits empty rank
  obtain ⟨total, entry⟩ := extended.of_empty empty
  rw [length_iterations] at total
  have sizes := extended.groupSizes empty
  rw [map_size_iterations] at sizes
  rw [← Factor.length_radices, ← Factor.length_radices]
  refine ⟨table, generated, total, ?_, ?_, ?_, ?_, ?_⟩
  · have few := numIterations_lt factored fits
    rw [total, maxNumIter]
    omega
  · intro iter early
    rw [total, ← length_iterations shape rank] at early
    rw [(entry (List.getElem?_eq_getElem early)).size, maxGroupSize]
    have := (iteration_size shape rank (List.getElem_mem early)).2
    omega
  · rw [sizes, List.prod_append, Factor.prod_radices, Factor.prod_radices, factored.numBoard,
      factored.boardSize]
  · intro iter early
    have stored := entry (iterations_getElem?_inter shape rank (List.getElem?_eq_getElem early))
    rw [stored.base, sizes, List.take_append_of_le_length early.le, Nat.mul_comm]
    rfl
  · intro iter early
    have stored := entry (iterations_getElem?_intra shape rank (List.getElem?_eq_getElem early))
    rw [stored.base, sizes, List.drop_left]
    rfl

/-- On six boards of twenty ranks there are five iterations. -/
theorem route_table_complete_six : ∃ table, sixBoards.generate 7 .init = some table ∧
    table.totalIter = 5 ∧ table.groupSizes.prod = 120 ∧ table.iterGroupBase 1 = 20 * 2 := by
  obtain ⟨table, generated, total, -, -, product, between, -⟩ :=
    route_table_complete sixBoards ⟨rfl, rfl⟩ (by decide) .init rfl 7
  refine ⟨table, generated, total, product, ?_⟩
  rw [between 1 (by decide)]
  have shown : (sixBoards.generate 7 .init).map RouteTable.groupSizes = some [2, 3, 2, 2, 5] := rfl
  rw [generated] at shown
  rw [Option.some.inj shown]
  rfl

end Ympi.Shuffle
