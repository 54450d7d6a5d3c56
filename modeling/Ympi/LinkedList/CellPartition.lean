import Ympi.LinkedList.BoundedFifo

/-! # The cells of a pooled linked list

In every state that calls lead to, the chains behind the two sentinels end, and together they
have every cell of the array once. The sentinels stay where `init` has put them, and the two tail
pointers are at the ends of the chains.
-/

namespace Ympi.LinkedList

open Foundation

universe u

variable {α : Type u} {poolSize : ℕ}

namespace Queue

namespace Represents

variable {queue : Queue α poolSize} {used free : List (Cell poolSize)}

/-- Every cell of the array is in one of the chains, and nowhere twice. -/
theorem count_eq_one (represents : queue.Represents used free) (cell : Cell poolSize) :
    ((queue.head :: used) ++ (queue.freelist.head :: free)).count cell = 1 := by
  rw [represents.covers.count_eq]
  exact List.count_eq_one_of_mem (List.nodup_finRange _) (List.mem_finRange cell)

theorem tail_eq_getLast (represents : queue.Represents used free) :
    queue.tail = (queue.head :: used).getLast (List.cons_ne_nil _ _) :=
  represents.tail_eq.trans (List.getLast_eq_getLastD _).symm

theorem freelistTail_eq_getLast (represents : queue.Represents used free) :
    queue.freelist.tail = (queue.freelist.head :: free).getLast (List.cons_ne_nil _ _) :=
  represents.freelistTail_eq.trans (List.getLast_eq_getLastD _).symm

end Represents

end Queue

open Queue

/-- **The chains partition the cells.** After any calls on a new queue the cells from `head` on
and those from `freelist.head` on are two chains that end, without a cell twice, and share no
cell. Every cell of the array is in one of them. The heads are the first two cells of the array,
and the tails are the last cells of the chains. -/
theorem chains_partition_cells (zero : α) (garbage : Cell poolSize → Element α poolSize)
    (queue : Queue α poolSize) (made : Queue.init zero garbage = some queue)
    (operations : List (Operation α)) (reached : Queue α poolSize) (answers : List (Answer α))
    (performed : performAll (Queue.perform zero) queue operations = .ok (reached, answers)) :
    reached.head = 0 ∧ reached.freelist.head = 1 ∧
      ∃ used free : List (Cell poolSize),
        Chain reached.next reached.head used ∧ Chain reached.next reached.freelist.head free ∧
        (reached.head :: used).Nodup ∧ (reached.freelist.head :: free).Nodup ∧
        (reached.head :: used).Disjoint (reached.freelist.head :: free) ∧
        (∀ cell, ((reached.head :: used) ++ (reached.freelist.head :: free)).count cell = 1) ∧
        reached.tail = (reached.head :: used).getLast (List.cons_ne_nil _ _) ∧
        reached.freelist.tail = (reached.freelist.head :: free).getLast (List.cons_ne_nil _ _) := by
  obtain ⟨used, free, represents⟩ := performAll_wellFormed zero (init_wellFormed made).1 performed
  obtain ⟨usedDistinct, freeDistinct, apart⟩ := List.nodup_append.mp represents.distinct
  refine ⟨represents.head_eq, represents.freelistHead_eq, used, free, represents.usedChain,
    represents.freeChain, usedDistinct, freeDistinct, ?_, represents.count_eq_one,
    represents.tail_eq_getLast, represents.freelistTail_eq_getLast⟩
  intro cell inUsed inFree
  exact apart cell inUsed cell inFree rfl

/-- The calls that empty and clear a queue of two cells leave its four cells in two chains. -/
theorem chains_partition_cells_two : ∃ (queue reached : Queue Int 2) (answers : List (Answer Int))
    (used free : List (Cell 2)), Queue.init (-1) (fun _ => ⟨0, none⟩) = some queue ∧
      performAll (Queue.perform (-1)) queue
        [.enqueue 4, .enqueue 5, .dequeue, .enqueue 6, .clear, .enqueue 7] =
          .ok (reached, answers) ∧
      Chain reached.next reached.head used ∧ Chain reached.next reached.freelist.head free ∧
      ∀ cell, ((reached.head :: used) ++ (reached.freelist.head :: free)).count cell = 1 := by
  obtain ⟨-, -, used, free, usedChain, freeChain, -, -, -, once, -, -⟩ :=
    chains_partition_cells (-1) (fun _ : Cell 2 => (⟨0, none⟩ : Element Int 2)) _ rfl
      [.enqueue 4, .enqueue 5, .dequeue, .enqueue 6, .clear, .enqueue 7] _ _ rfl
  exact ⟨_, _, _, used, free, rfl, rfl, usedChain, freeChain, once⟩

end Ympi.LinkedList
