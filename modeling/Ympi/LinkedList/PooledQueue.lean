import Ympi.LinkedList.BoundedFifo

/-! # Well-formed pooled queues

A pooled queue that carries the proof that its chains partition its array. The
layers that store buffers in such queues see a queue through its contents: what a
call that returned did to them.
-/

namespace Ympi.LinkedList

universe u

/-- A pooled linked list together with its representation invariant. -/
structure PooledQueue (α : Type u) (poolSize : ℕ) where
  queue : Queue α poolSize
  wellFormed : queue.WellFormed

namespace PooledQueue

variable {α : Type u} {poolSize : ℕ}

/-- The stored values, oldest first. -/
def contents (queue : PooledQueue α poolSize) : List α :=
  queue.queue.contents

/-- A new queue, for a size that leaves room for the sentinels in an `int`. -/
def init (zero : α) (garbage : Cell poolSize → Element α poolSize)
    (representable : poolSize + 2 ≤ intMax) : PooledQueue α poolSize where
  queue := (Queue.init zero garbage).get (by simp [Queue.init, representable])
  wellFormed := (Queue.init_wellFormed (Option.some_get _).symm).1

def enqueue (queue : PooledQueue α poolSize) (value : α) : Except Halt (PooledQueue α poolSize) :=
  match performed : queue.queue.enqueue value with
  | .error halt => .error halt
  | .ok result => .ok ⟨result, by
      by_cases full : queue.queue.contents.length = poolSize
      · rw [queue.wellFormed.enqueue_full full] at performed
        cases performed
      · obtain ⟨after, ok, kept, _⟩ :=
          queue.wellFormed.enqueue_ok (lt_of_le_of_ne queue.wellFormed.length_le full) value
        rw [ok] at performed
        exact Except.ok.inj performed ▸ kept⟩

def dequeue (zero : α) (queue : PooledQueue α poolSize) :
    Except Halt (PooledQueue α poolSize × α) :=
  match performed : queue.queue.dequeue zero with
  | .error halt => .error halt
  | .ok (result, value) => .ok (⟨result, by
      cases stored : queue.queue.contents with
      | nil =>
          rw [Queue.dequeue, if_pos (queue.wellFormed.head_eq_tail_iff.mpr stored)] at performed
          exact (Prod.mk.inj (Except.ok.inj performed)).1 ▸ queue.wellFormed
      | cons oldest rest =>
          obtain ⟨after, ok, kept, _⟩ := queue.wellFormed.takeFirst_ok stored zero
          have nonempty : ¬ queue.queue.head = queue.queue.tail := fun same =>
            List.cons_ne_nil _ _ (stored.symm.trans (queue.wellFormed.head_eq_tail_iff.mp same))
          rw [Queue.dequeue, if_neg nonempty, ok] at performed
          exact (Prod.mk.inj (Except.ok.inj performed)).1 ▸ kept⟩, value)

variable {queue after : PooledQueue α poolSize}

@[simp] theorem contents_init (zero : α) (garbage : Cell poolSize → Element α poolSize)
    (representable : poolSize + 2 ≤ intMax) : (init zero garbage representable).contents = [] :=
  (Queue.init_wellFormed (Option.some_get _).symm).2

theorem length_contents_le (queue : PooledQueue α poolSize) : queue.contents.length ≤ poolSize :=
  queue.wellFormed.length_le

/-- A queue with room takes a value at its end. -/
theorem enqueue_ok (queue : PooledQueue α poolSize) (value : α)
    (room : queue.contents.length < poolSize) :
    ∃ after, queue.enqueue value = .ok after ∧ after.contents = queue.contents ++ [value] := by
  obtain ⟨result, ok, kept, stored⟩ := queue.wellFormed.enqueue_ok room value
  refine ⟨⟨result, kept⟩, ?_, stored⟩
  unfold enqueue
  split
  next halt failed => rw [ok] at failed; cases failed
  next result' performed =>
    rw [ok] at performed
    cases performed
    rfl

/-- What `enqueue` did when it returned. -/
theorem enqueue_eq_ok {value : α} (performed : queue.enqueue value = .ok after) :
    after.contents = queue.contents ++ [value] := by
  by_cases full : queue.contents.length = poolSize
  · unfold enqueue at performed
    split at performed
    · cases performed
    next result ok =>
      rw [queue.wellFormed.enqueue_full full] at ok
      cases ok
  · obtain ⟨result, ok, stored⟩ :=
      queue.enqueue_ok value (lt_of_le_of_ne queue.length_contents_le full)
    rw [ok] at performed
    cases performed
    exact stored

/-- `dequeue` on an empty queue yields the zero value and changes nothing. -/
theorem dequeue_nil (zero : α) (empty : queue.contents = []) :
    queue.dequeue zero = .ok (queue, zero) := by
  have found : queue.queue.dequeue zero = .ok (queue.queue, zero) := by
    rw [Queue.dequeue, if_pos (queue.wellFormed.head_eq_tail_iff.mpr empty)]
  unfold dequeue
  split
  next halt failed => rw [found] at failed; cases failed
  next result value performed =>
    rw [found] at performed
    cases performed
    rfl

/-- `dequeue` on a queue with elements yields the oldest one. -/
theorem dequeue_cons (zero : α) {value : α} {rest : List α}
    (stored : queue.contents = value :: rest) :
    ∃ after, queue.dequeue zero = .ok (after, value) ∧ after.contents = rest := by
  obtain ⟨result, ok, kept, left⟩ := queue.wellFormed.takeFirst_ok stored zero
  have found : queue.queue.dequeue zero = .ok (result, value) := by
    rw [Queue.dequeue, if_neg (queue.wellFormed.head_ne_tail stored), ok]
  refine ⟨⟨result, kept⟩, ?_, left⟩
  unfold dequeue
  split
  next halt failed => rw [found] at failed; cases failed
  next result' value' performed =>
    rw [found] at performed
    cases performed
    rfl

/-- What `dequeue` did when it returned: it found the queue empty, or it took the
oldest element. -/
theorem dequeue_eq_ok {zero value : α} (performed : queue.dequeue zero = .ok (after, value)) :
    (queue.contents = [] ∧ after = queue ∧ value = zero) ∨
      queue.contents = value :: after.contents := by
  cases stored : queue.contents with
  | nil =>
      rw [dequeue_nil zero stored] at performed
      cases performed
      exact Or.inl ⟨rfl, rfl, rfl⟩
  | cons oldest rest =>
      obtain ⟨result, ok, left⟩ := dequeue_cons zero stored
      rw [ok] at performed
      cases performed
      exact Or.inr (by rw [left])

/-- `dequeue` returned `zero`, which may also be an element. -/
theorem dequeue_eq_ok_zero {zero : α} (performed : queue.dequeue zero = .ok (after, zero)) :
    (queue.contents = [] ∧ after = queue) ∨ queue.contents = zero :: after.contents := by
  rcases dequeue_eq_ok performed with ⟨empty, same, _⟩ | stored
  · exact Or.inl ⟨empty, same⟩
  · exact Or.inr stored

end PooledQueue

end Ympi.LinkedList
