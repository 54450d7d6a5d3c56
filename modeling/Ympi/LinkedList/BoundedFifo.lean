import Ympi.Foundation.Refinement
import Ympi.LinkedList.Operations

/-! # The pooled linked list is a bounded FIFO queue

`Fifo` states what the queue is for: a list of at most `capacity` values that
grows at one end and shrinks at the other. `Queue.perform_agrees` connects a
single operation of the linked structure with it, and the refinement rule carries
the connection over every sequence of operations.
-/

namespace Ympi.LinkedList

open Foundation

universe u

variable {α : Type u} {poolSize : ℕ}

namespace Queue

/-- The cells behind `cell`, as many as `fuel` allows. -/
def follow (queue : Queue α poolSize) : ℕ → Cell poolSize → List (Cell poolSize)
  | 0, _ => []
  | fuel + 1, cell =>
      match queue.next cell with
      | none => []
      | some following => following :: queue.follow fuel following

/-- The stored values, oldest first. -/
def contents (queue : Queue α poolSize) : List α :=
  (queue.follow poolSize queue.head).map queue.elemAt

theorem follow_eq_of_chain {queue : Queue α poolSize} {first : Cell poolSize}
    {cells : List (Cell poolSize)} (chain : Chain queue.next first cells) {fuel : ℕ}
    (enough : cells.length ≤ fuel) : queue.follow fuel first = cells := by
  induction cells generalizing first fuel with
  | nil =>
      have ended : queue.next first = none := chain
      cases fuel with
      | zero => rfl
      | succ fuel => rw [follow, ended]
  | cons cell rest ih =>
      cases fuel with
      | zero => exact absurd enough (Nat.not_succ_le_zero _)
      | succ fuel =>
          have shorter : rest.length ≤ fuel := Nat.le_of_succ_le_succ enough
          simp only [follow, chain.1, ih chain.2 shorter]

theorem Represents.contents_eq {queue : Queue α poolSize} {used free : List (Cell poolSize)}
    (represents : queue.Represents used free) : queue.contents = used.map queue.elemAt := by
  have bound := represents.length_add
  rw [contents, follow_eq_of_chain represents.usedChain (by omega)]

/-- The two chains of the queue partition its array. -/
def WellFormed (queue : Queue α poolSize) : Prop :=
  ∃ used free, queue.Represents used free

namespace WellFormed

variable {queue : Queue α poolSize}

theorem length_le (wellFormed : queue.WellFormed) : queue.contents.length ≤ poolSize := by
  obtain ⟨used, free, represents⟩ := wellFormed
  have bound := represents.length_add
  rw [represents.contents_eq, List.length_map]
  omega

theorem enqueue_full (wellFormed : queue.WellFormed) (full : queue.contents.length = poolSize)
    (value : α) : queue.enqueue value = .error (.exit 1) := by
  obtain ⟨used, free, represents⟩ := wellFormed
  have bound := represents.length_add
  rw [represents.contents_eq, List.length_map] at full
  have noneFree : free = [] := List.eq_nil_of_length_eq_zero (by omega)
  subst noneFree
  exact represents.enqueue_full value

theorem enqueue_ok (wellFormed : queue.WellFormed) (room : queue.contents.length < poolSize)
    (value : α) :
    ∃ result, queue.enqueue value = .ok result ∧ result.WellFormed ∧
      result.contents = queue.contents ++ [value] := by
  obtain ⟨used, free, represents⟩ := wellFormed
  have bound := represents.length_add
  have before := represents.contents_eq
  rw [before, List.length_map] at room
  cases free with
  | nil =>
      rw [List.length_nil] at bound
      omega
  | cons cell free =>
      obtain ⟨result, ok, after, stored⟩ := represents.enqueue_ok value
      refine ⟨result, ok, ⟨_, _, after⟩, ?_⟩
      have fresh : cell ∉ used := fun member =>
        (List.nodup_append.mp represents.distinct).2.2 cell (List.mem_cons_of_mem _ member) cell
          (List.mem_cons_of_mem _ List.mem_cons_self) rfl
      have kept : used.map (Function.update queue.elemAt cell value) = used.map queue.elemAt := by
        apply List.map_congr_left
        intro other member
        have apart : other ≠ cell := fun same => fresh (same ▸ member)
        exact Function.update_of_ne apart _ _
      rw [after.contents_eq, before, stored, List.map_append, kept, List.map_singleton,
        Function.update_self]

/-- A queue is found empty exactly when it stores nothing. -/
theorem head_eq_tail_iff (wellFormed : queue.WellFormed) :
    queue.head = queue.tail ↔ queue.contents = [] := by
  obtain ⟨used, free, represents⟩ := wellFormed
  rw [represents.head_eq_tail_iff, represents.contents_eq, List.map_eq_nil_iff]

theorem head_ne_tail (wellFormed : queue.WellFormed) {value : α} {rest : List α}
    (stored : queue.contents = value :: rest) : ¬ queue.head = queue.tail := by
  rw [wellFormed.head_eq_tail_iff, stored]
  exact List.cons_ne_nil value rest

theorem takeFirst_ok (wellFormed : queue.WellFormed) {value : α} {rest : List α}
    (stored : queue.contents = value :: rest) (zero : α) :
    ∃ result, queue.takeFirst zero = .ok (result, value) ∧ result.WellFormed ∧
      result.contents = rest := by
  obtain ⟨used, free, represents⟩ := wellFormed
  rw [represents.contents_eq] at stored
  cases used with
  | nil => cases stored
  | cons cell used =>
      obtain ⟨rfl, rfl⟩ := List.cons.inj stored
      obtain ⟨result, ok, after, cleared⟩ := represents.takeFirst_ok zero
      refine ⟨result, ok, ⟨_, _, after⟩, ?_⟩
      have fresh : cell ∉ used := (List.nodup_cons.mp (List.nodup_cons.mp
        (List.nodup_append.mp represents.distinct).1).2).1
      rw [after.contents_eq, cleared]
      apply List.map_congr_left
      intro other member
      have apart : other ≠ cell := fun same => fresh (same ▸ member)
      exact Function.update_of_ne apart _ _

theorem clear_ok (wellFormed : queue.WellFormed) :
    queue.clear.WellFormed ∧ queue.clear.contents = [] := by
  obtain ⟨used, free, represents⟩ := wellFormed
  have after := represents.clear_represents.1
  exact ⟨⟨_, _, after⟩, after.contents_eq⟩

end WellFormed

theorem init_wellFormed {zero : α} {garbage : Cell poolSize → Element α poolSize}
    {queue : Queue α poolSize} (made : init zero garbage = some queue) :
    queue.WellFormed ∧ queue.contents = [] := by
  have represents := init_represents zero garbage made
  exact ⟨⟨_, _, represents⟩, represents.contents_eq⟩

end Queue

/-- A call on a queue; `out` is the output variable that `dequeue_inplace` may
write. -/
inductive Operation (α : Type u) where
  | enqueue (value : α)
  | dequeue
  | dequeueInplace (out : α)
  | clear

/-- What a call gives back: nothing, a value, or a status and the output variable. -/
inductive Answer (α : Type u) where
  | done
  | value (value : α)
  | status (code : Int) (out : α)

namespace Queue

/-- Perform a call on the linked structure. -/
def perform (zero : α) (queue : Queue α poolSize) :
    Operation α → Except Halt (Queue α poolSize × Answer α)
  | .enqueue value => do
      let result ← queue.enqueue value
      return (result, .done)
  | .dequeue => do
      let (result, value) ← queue.dequeue zero
      return (result, .value value)
  | .dequeueInplace out => do
      let (result, code, out) ← queue.dequeueInplace zero out
      return (result, .status code out)
  | .clear => .ok (queue.clear, .done)

end Queue

namespace Fifo

/-- The abstract queue: a list that holds at most `capacity` values. -/
def perform (capacity : ℕ) (zero : α) (items : List α) :
    Operation α → Except Halt (List α × Answer α)
  | .enqueue value =>
      if items.length = capacity then .error (.exit 1) else .ok (items ++ [value], .done)
  | .dequeue =>
      match items with
      | [] => .ok ([], .value zero)
      | oldest :: rest => .ok (rest, .value oldest)
  | .dequeueInplace out =>
      match items with
      | [] => .ok ([], .status (-1) out)
      | oldest :: rest => .ok (rest, .status 0 oldest)
  | .clear => .ok ([], .done)

/-- An empty queue takes as many values as its capacity. -/
theorem performAll_enqueue (capacity : ℕ) (zero : α) (items values : List α)
    (room : items.length + values.length ≤ capacity) :
    performAll (perform capacity zero) items (values.map .enqueue) =
      .ok (items ++ values, values.map fun _ => .done) := by
  induction values generalizing items with
  | nil => simp [performAll]
  | cons value rest ih =>
      rw [List.length_cons] at room
      have notFull : ¬ items.length = capacity := by omega
      have tail := ih (items ++ [value]) (by
        rw [List.length_append, List.length_singleton]
        omega)
      simp only [List.map_cons, performAll, perform, if_neg notFull, bind, Except.bind, tail]
      rw [List.append_assoc]
      rfl

end Fifo

namespace Queue

variable {queue : Queue α poolSize}

/-- A call on a well-formed queue does to its contents what it does to the
abstract queue, with the same result. -/
theorem perform_agrees (zero : α) (wellFormed : queue.WellFormed) (operation : Operation α) :
    Agrees (Queue.perform zero) (Fifo.perform poolSize zero) contents WellFormed queue
      operation := by
  cases operation with
  | enqueue value =>
      by_cases full : queue.contents.length = poolSize
      · left
        refine ⟨.exit 1, ?_, if_pos full⟩
        rw [perform, wellFormed.enqueue_full full]
        rfl
      · right
        have room := lt_of_le_of_ne wellFormed.length_le full
        obtain ⟨result, ok, kept, stored⟩ := wellFormed.enqueue_ok room value
        refine ⟨result, .done, ?_, kept, ?_⟩
        · rw [perform, ok]
          rfl
        · rw [Fifo.perform, if_neg full, stored]
  | dequeue =>
      right
      cases stored : queue.contents with
      | nil =>
          refine ⟨queue, .value zero, ?_, wellFormed, by rw [stored, Fifo.perform]⟩
          rw [perform, dequeue, if_pos (wellFormed.head_eq_tail_iff.mpr stored)]
          rfl
      | cons value rest =>
          obtain ⟨result, ok, kept, left⟩ := wellFormed.takeFirst_ok stored zero
          refine ⟨result, .value value, ?_, kept, by rw [left, Fifo.perform]⟩
          rw [perform, dequeue, if_neg (wellFormed.head_ne_tail stored), ok]
          rfl
  | dequeueInplace out =>
      right
      cases stored : queue.contents with
      | nil =>
          refine ⟨queue, .status (-1) out, ?_, wellFormed, by rw [stored, Fifo.perform]⟩
          rw [perform, dequeueInplace, if_pos (wellFormed.head_eq_tail_iff.mpr stored)]
          rfl
      | cons value rest =>
          obtain ⟨result, ok, kept, left⟩ := wellFormed.takeFirst_ok stored zero
          refine ⟨result, .status 0 value, ?_, kept, by rw [left, Fifo.perform]⟩
          rw [perform, dequeueInplace, if_neg (wellFormed.head_ne_tail stored), ok]
          rfl
  | clear =>
      right
      refine ⟨queue.clear, .done, rfl, wellFormed.clear_ok.1, ?_⟩
      rw [wellFormed.clear_ok.2, Fifo.perform]

/-- Calls that all return lead from a well-formed queue to another one. -/
theorem performAll_wellFormed (zero : α) (wellFormed : queue.WellFormed)
    {operations : List (Operation α)} {reached : Queue α poolSize} {answers : List (Answer α)}
    (performed : performAll (Queue.perform zero) queue operations = .ok (reached, answers)) :
    reached.WellFormed :=
  performAll_invariant (fun _ operation holds => perform_agrees zero holds operation) wellFormed
    performed

/-- Calls on a well-formed queue go as they do on its contents. -/
theorem performAll_contents (zero : α) (wellFormed : queue.WellFormed)
    (operations : List (Operation α)) :
    (performAll (Queue.perform zero) queue operations).map
        (fun result => (result.1.contents, result.2)) =
      performAll (Fifo.perform poolSize zero) queue.contents operations :=
  performAll_refines (fun _ operation holds => perform_agrees zero holds operation) wellFormed
    operations

end Queue

/-- **The pooled linked list is a bounded FIFO queue.** On a queue initialised
with `poolSize`, any sequence of calls ends the process exactly when it does so on
a list bounded by `poolSize`, and otherwise gives the same answers and leaves the
same contents. Whenever its elements have all been removed, the queue again takes
`poolSize` of them. -/
theorem pooledList_refines_fifo (zero : α) (garbage : Cell poolSize → Element α poolSize)
    (queue : Queue α poolSize) (made : Queue.init zero garbage = some queue)
    (operations : List (Operation α)) :
    (performAll (Queue.perform zero) queue operations).map
        (fun result => (result.1.contents, result.2)) =
      performAll (Fifo.perform poolSize zero) [] operations ∧
    ∀ later answers, performAll (Queue.perform zero) queue operations = .ok (later, answers) →
      later.contents = [] → ∀ values : List α, values.length = poolSize →
        ∃ filled, performAll (Queue.perform zero) later (values.map .enqueue) =
          .ok (filled, values.map fun _ => .done) ∧ filled.contents = values := by
  obtain ⟨wellFormed, empty⟩ := Queue.init_wellFormed made
  constructor
  · rw [Queue.performAll_contents zero wellFormed operations, empty]
  · intro later answers performed drained values size
    have kept := Queue.performAll_wellFormed zero wellFormed performed
    have refined := Queue.performAll_contents zero kept (values.map .enqueue)
    rw [drained, Fifo.performAll_enqueue poolSize zero [] values (by simp [size])] at refined
    cases run : performAll (Queue.perform zero) later (values.map .enqueue) with
    | error halt =>
        rw [run] at refined
        cases refined
    | ok result =>
        obtain ⟨filled, given⟩ := result
        rw [run] at refined
        obtain ⟨stored, rfl⟩ := Prod.mk.inj (Except.ok.inj refined)
        exact ⟨filled, rfl, stored.trans (List.nil_append values)⟩

/-- A stored zero value is an element like any other, and a full queue refuses. -/
theorem pooledList_refines_fifo_two :
    ∃ queue : Queue Int 2, Queue.init (-1) (fun _ => ⟨0, none⟩) = some queue ∧
      (performAll (Queue.perform (-1)) queue
          [.enqueue (-1), .enqueue 5, .dequeueInplace 7, .dequeue, .dequeueInplace 7]).map
        (fun result => (result.1.contents, result.2)) =
      .ok ([], [.done, .done, .status 0 (-1), .value 5, .status (-1) 7]) :=
  ⟨_, rfl, (pooledList_refines_fifo (-1) (fun _ => ⟨0, none⟩) _ rfl _).1⟩

end Ympi.LinkedList
