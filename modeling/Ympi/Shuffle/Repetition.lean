import Ympi.Shuffle.Exchange

/-! # Repeated shuffles

The route table and the number of its iterations are static, and no call sets the number
back. Every call of `YMPI_Shuffle` appends its iterations to those of the calls before it.
-/

namespace Ympi.Shuffle

open Foundation

namespace RouteTable

variable {table after : RouteTable}

/-- The exchange loop goes over the same iterations in both tables. -/
structure SameRoutes (first second : RouteTable) : Prop where
  totalIter : first.totalIter = second.totalIter
  iterGroupBase : ∀ iter < first.totalIter, first.iterGroupBase iter = second.iterGroupBase iter
  iterGroupSize : ∀ iter < first.totalIter, first.iterGroupSize iter = second.iterGroupSize iter
  successiveRank : ∀ iter < first.totalIter, ∀ p < first.iterGroupSize iter,
    first.successiveRank iter p = second.successiveRank iter p

theorem SameRoutes.refl (table : RouteTable) : table.SameRoutes table :=
  ⟨rfl, fun _ _ => rfl, fun _ _ => rfl, fun _ _ _ _ => rfl⟩

/-- Iterations that were all stored are counted, and there was room for them. -/
theorem recordAll_total {iterations : List Iteration}
    (stored : recordAll iterations table = some after) (room : table.totalIter ≤ maxNumIter) :
    after.totalIter = table.totalIter + iterations.length ∧ after.totalIter ≤ maxNumIter := by
  induction iterations generalizing table with
  | nil =>
      cases stored
      exact ⟨rfl, room⟩
  | cons iteration rest ih =>
      rw [recordAll, record] at stored
      split at stored
      next fits =>
        have later := ih stored fits.1
        rw [List.length_cons]
        refine ⟨?_, later.2⟩
        rw [later.1]
        simp only
        omega
      next => cases stored

end RouteTable

namespace BoardShape

variable (shape : BoardShape) (rank : ℕ)

/-- The static table of a process after `count` calls of `YMPI_Shuffle`, unless one of them
has written outside of it. -/
def shuffles : ℕ → Option RouteTable
  | 0 => some .init
  | count + 1 => shuffles count >>= shape.generate rank

variable {shape} {rank}

/-- The tables after the calls are those of one call with all their iterations. -/
theorem shuffles_eq (count : ℕ) : shape.shuffles rank count =
    RouteTable.recordAll (List.replicate count (shape.iterations rank)).flatten .init := by
  induction count with
  | zero => rfl
  | succ count ih =>
      rw [shuffles, ih, List.replicate_succ', List.flatten_append, RouteTable.recordAll_append,
        List.flatten_singleton]
      congr 1
      funext table
      exact shape.generate_eq rank table

theorem length_iterations_replicate (shape : BoardShape) (rank count : ℕ) :
    (List.replicate count (shape.iterations rank)).flatten.length =
      count * shape.numIterations := by
  rw [List.length_flatten, List.map_replicate, List.sum_replicate_nat, length_iterations]

/-- Every call adds its iterations to the table. -/
theorem shuffles_total {count : ℕ} {table : RouteTable}
    (done : shape.shuffles rank count = some table) :
    table.totalIter = count * shape.numIterations ∧ table.totalIter ≤ maxNumIter := by
  rw [shuffles_eq] at done
  have total := RouteTable.recordAll_total done (Nat.zero_le _)
  rw [length_iterations_replicate] at total
  exact ⟨total.1.trans (Nat.zero_add _), total.2⟩

/-- A call writes outside the table as soon as the iterations of all calls do not fit. -/
theorem shuffles_eq_none_iff (count : ℕ) :
    shape.shuffles rank count = none ↔ maxNumIter < count * shape.numIterations := by
  refine ⟨?_, ?_⟩
  · intro outside
    by_contra fits
    obtain ⟨table, stored, -⟩ := @RouteTable.recordAll_ok
      (List.replicate count (shape.iterations rank)).flatten .init (by
        rw [length_iterations_replicate]
        exact (Nat.zero_add _).trans_le (Nat.le_of_not_lt fits)) (by
        intro iteration listed
        obtain ⟨iterations, copy, member⟩ := List.mem_flatten.mp listed
        rw [List.eq_of_mem_replicate copy] at member
        have := (iteration_size shape rank member).2
        rw [maxGroupSize]
        omega)
    rw [shuffles_eq, stored] at outside
    cases outside
  · intro many
    cases done : shape.shuffles rank count with
    | none => rfl
    | some table =>
        have total := shuffles_total done
        omega

end BoardShape

open BoardShape

/-- **Repeated shuffles.** After some calls with the same topology the exchange goes over the
table of the first call, and no call has written outside of it, if and only if there was
just one call or there is just one rank, which has no iterations. -/
theorem repeated_shuffles_iff (shape : BoardShape) (factored : shape.Factored)
    (fits : shape.numBoard * shape.boardSize ≤ maxNprocs) (rank count : ℕ) (called : 1 ≤ count) :
    (∃ first table, shape.shuffles rank 1 = some first ∧
      shape.shuffles rank count = some table ∧ table.SameRoutes first) ↔
      count = 1 ∨ shape.numBoard * shape.boardSize = 1 := by
  obtain ⟨first, once⟩ : ∃ first, shape.shuffles rank 1 = some first := by
    obtain ⟨first, generated, -⟩ := exists_generate factored fits RouteTable.init_empty rank
    exact ⟨first, generated⟩
  refine ⟨?_, ?_⟩
  · rintro ⟨_, table, single, several, same⟩
    have total := same.totalIter
    rw [(shuffles_total several).1, (shuffles_total single).1] at total
    by_cases none : shape.numIterations = 0
    · exact Or.inr (numRanks_eq_one factored none)
    · exact Or.inl (Nat.eq_of_mul_eq_mul_right (Nat.pos_of_ne_zero none) total)
  · rintro (rfl | alone)
    · exact ⟨first, first, once, once, .refl first⟩
    · have none : shape.iterations rank = [] := by
        rw [← List.length_eq_zero_iff, length_iterations]
        exact numIterations_eq_zero factored alone
      have unchanged (count : ℕ) : shape.shuffles rank count = some .init := by
        rw [shuffles_eq, none, List.flatten_replicate_nil]
        rfl
      exact ⟨.init, .init, unchanged 1, unchanged count, .refl _⟩

/-- On six boards of twenty ranks one call leaves the table of the first call. -/
theorem repeated_shuffles_iff_six : ∃ first table, sixBoards.shuffles 7 1 = some first ∧
    sixBoards.shuffles 7 1 = some table ∧ table.SameRoutes first :=
  (repeated_shuffles_iff sixBoards ⟨rfl, rfl⟩ (by decide) 7 1 le_rfl).mpr (Or.inl rfl)

/-- On six boards of twenty ranks the second call leaves ten iterations instead of five, and
the fifth one writes outside the table. -/
theorem repeated_shuffles_differ :
    (sixBoards.shuffles 7 1).map RouteTable.totalIter = some 5 ∧
      (sixBoards.shuffles 7 2).map RouteTable.totalIter = some 10 ∧
      (sixBoards.shuffles 7 5).map RouteTable.totalIter = none :=
  ⟨rfl, rfl, rfl⟩

end Ympi.Shuffle
