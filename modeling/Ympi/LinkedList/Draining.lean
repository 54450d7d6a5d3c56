import Ympi.LinkedList.BoundedFifo

/-! # Clearing and draining

`clear` splices all stored cells behind the free ones at once. A caller that calls `dequeue`
until the queue is empty moves them there one by one, through other pointers, and leaves the
same chains. Only the values in the free cells differ, which no operation reads.
-/

namespace Ympi.LinkedList

open Foundation

universe u

variable {α : Type u} {poolSize : ℕ}

namespace Queue

/-- Call `dequeue` until `head == tail`, at most `fuel` times. -/
def drain (zero : α) : ℕ → Queue α poolSize → Except Halt (Queue α poolSize)
  | 0, queue => .ok queue
  | fuel + 1, queue =>
      if queue.head = queue.tail then .ok queue
      else do
        let (rest, _) ← queue.dequeue zero
        drain zero fuel rest

/-- The cells of the free list. -/
def freeCells (queue : Queue α poolSize) : List (Cell poolSize) :=
  queue.follow poolSize queue.freelist.head

/-- All pointers of the two queues are the same. -/
structure SameLinks (first second : Queue α poolSize) : Prop where
  head : first.head = second.head
  tail : first.tail = second.tail
  freelistHead : first.freelist.head = second.freelist.head
  freelistTail : first.freelist.tail = second.freelist.tail
  next : ∀ cell, first.next cell = second.next cell

namespace Represents

variable {queue other : Queue α poolSize} {used free : List (Cell poolSize)}

/-- The represented cells determine all pointers. -/
theorem sameLinks (represents : queue.Represents used free)
    (represents' : other.Represents used free) : queue.SameLinks other := by
  have head : queue.head = other.head := represents.head_eq.trans represents'.head_eq.symm
  have freelistHead : queue.freelist.head = other.freelist.head :=
    represents.freelistHead_eq.trans represents'.freelistHead_eq.symm
  refine ⟨head, ?_, freelistHead, ?_, ?_⟩
  · rw [represents.tail_eq, represents'.tail_eq, head]
  · rw [represents.freelistTail_eq, represents'.freelistTail_eq, freelistHead]
  · intro cell
    have usedChain := represents'.usedChain
    have freeChain := represents'.freeChain
    rw [← head] at usedChain
    rw [← freelistHead] at freeChain
    have member := represents.covers.mem_iff.mpr (List.mem_finRange cell)
    rcases List.mem_append.mp member with inUsed | inFree
    · exact represents.usedChain.next_eq usedChain inUsed
    · exact represents.freeChain.next_eq freeChain inFree

theorem freeCells_eq (represents : queue.Represents used free) : queue.freeCells = free := by
  have bound := represents.length_add
  exact follow_eq_of_chain represents.freeChain (by omega)

/-- Draining makes the stored cells free, in their order. -/
theorem drain_ok (represents : queue.Represents used free) (zero : α) :
    ∃ drained, (∀ fuel, used.length ≤ fuel → queue.drain zero fuel = .ok drained) ∧
      drained.Represents [] (free ++ used) ∧
      ∀ cell, cell ∉ used → drained.elemAt cell = queue.elemAt cell := by
  induction used generalizing queue free with
  | nil =>
      rw [List.append_nil]
      refine ⟨queue, ?_, represents, fun _ _ => rfl⟩
      intro fuel _
      cases fuel with
      | zero => rfl
      | succ fuel => exact if_pos (represents.head_eq_tail_iff.mpr rfl)
  | cons cell used ih =>
      have nonempty : ¬ queue.head = queue.tail := fun same =>
        List.cons_ne_nil _ _ (represents.head_eq_tail_iff.mp same)
      obtain ⟨result, taken, after, cleared⟩ := represents.takeFirst_ok zero
      obtain ⟨drained, done, represents', kept⟩ := ih after
      rw [List.append_assoc] at represents'
      refine ⟨drained, ?_, represents', ?_⟩
      · intro fuel enough
        cases fuel with
        | zero => exact absurd enough (Nat.not_succ_le_zero _)
        | succ fuel =>
            rw [drain, if_neg nonempty, dequeue, if_neg nonempty, taken]
            exact done fuel (Nat.le_of_succ_le_succ enough)
      · intro other outside
        rw [List.mem_cons, not_or] at outside
        rw [kept other outside.2, cleared, Function.update_of_ne outside.1]

end Represents

end Queue

open Queue

/-- **Clear equals draining.** On every queue that any calls lead to, `clear` leaves the same
pointers as calling `dequeue` until the queue is empty. The values differ at most in cells
of the free list, and all later calls give the same results. -/
theorem clear_eq_drain (zero : α) (garbage : Cell poolSize → Element α poolSize)
    (queue : Queue α poolSize) (made : Queue.init zero garbage = some queue)
    (operations : List (Operation α)) (reached : Queue α poolSize) (answers : List (Answer α))
    (performed : performAll (Queue.perform zero) queue operations = .ok (reached, answers)) :
    ∃ drained, (∀ fuel, poolSize ≤ fuel → reached.drain zero fuel = .ok drained) ∧
      drained.head = drained.tail ∧ reached.clear.SameLinks drained ∧
      (∀ cell, cell ∉ reached.clear.freeCells →
        reached.clear.elemAt cell = drained.elemAt cell) ∧
      ∀ later : List (Operation α),
        (performAll (Queue.perform zero) reached.clear later).map
            (fun result => (result.1.contents, result.2)) =
          (performAll (Queue.perform zero) drained later).map
            fun result => (result.1.contents, result.2) := by
  obtain ⟨used, free, represents⟩ :=
    Queue.performAll_wellFormed zero (Queue.init_wellFormed made).1 performed
  have bound := represents.length_add
  obtain ⟨drained, done, emptied, kept⟩ := represents.drain_ok zero
  obtain ⟨cleared, values⟩ := represents.clear_represents
  refine ⟨drained, fun fuel enough => done fuel (by omega), emptied.head_eq_tail_iff.mpr rfl,
    cleared.sameLinks emptied, ?_, ?_⟩
  · intro cell outside
    rw [cleared.freeCells_eq, List.mem_append, not_or] at outside
    rw [values, kept cell outside.2]
  · intro later
    rw [Queue.performAll_contents zero ⟨_, _, cleared⟩ later,
      Queue.performAll_contents zero ⟨_, _, emptied⟩ later, cleared.contents_eq,
      emptied.contents_eq]
    rfl

/-- A queue with two values in three cells is cleared as it is drained. -/
theorem clear_eq_drain_two : ∃ queue reached drained : Queue Int 3,
    Queue.init (-1) (fun _ => ⟨0, none⟩) = some queue ∧ reached.contents = [4, 5] ∧
      reached.drain (-1) 3 = .ok drained ∧ reached.clear.SameLinks drained := by
  let garbage : Cell 3 → Element Int 3 := fun _ => ⟨0, none⟩
  obtain ⟨drained, done, -, same, -⟩ :=
    clear_eq_drain (-1) garbage _ rfl [.enqueue 4, .enqueue 5] _ _ rfl
  exact ⟨_, _, drained, rfl, rfl, done 3 le_rfl, same⟩

end Ympi.LinkedList
