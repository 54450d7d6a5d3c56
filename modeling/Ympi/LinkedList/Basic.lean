import Mathlib.Logic.Function.Basic
import Mathlib.Data.List.FinRange
import Mathlib.Data.Fin.Basic

/-! # The pooled linked list

The queue that `DECLARE_LINKED_LIST` generates for an element type and a zero
value. A queue owns one array of `pool_size + 2` cells. Two sentinel cells head
two chains through the array: the stored elements behind cell 0 and the free
cells behind cell 1. A pointer into the array is an index of it, and `NULL` is
`none`. A call either returns, or the process ends in it.
-/

namespace Ympi

/-- How a call can end the process instead of returning. -/
inductive Halt where
  | exit (status : Int)
  | assertion
  /-- A null pointer is followed or an array is indexed outside its bounds. -/
  | fault
  deriving DecidableEq, Repr

namespace LinkedList

universe u

/-- An index of the array of a queue made with `pool_size` usable cells. -/
abbrev Cell (poolSize : ℕ) := Fin (poolSize + 2)

structure Element (α : Type u) (poolSize : ℕ) where
  elem : α
  next : Option (Cell poolSize)

structure Freelist (α : Type u) (poolSize : ℕ) where
  list : Cell poolSize → Element α poolSize
  head : Cell poolSize
  tail : Cell poolSize

structure Queue (α : Type u) (poolSize : ℕ) where
  freelist : Freelist α poolSize
  head : Cell poolSize
  tail : Cell poolSize

/-- The largest `int`. -/
def intMax : ℕ := 2147483647

variable {α : Type u} {poolSize : ℕ}

namespace Queue

/-- The value stored in a cell. -/
def elemAt (queue : Queue α poolSize) (cell : Cell poolSize) : α :=
  (queue.freelist.list cell).elem

/-- The `next` pointer of a cell. -/
def next (queue : Queue α poolSize) (cell : Cell poolSize) : Option (Cell poolSize) :=
  (queue.freelist.list cell).next

/-- `cell->next = pointer` -/
def setNext (queue : Queue α poolSize) (cell : Cell poolSize)
    (pointer : Option (Cell poolSize)) : Queue α poolSize :=
  { queue with freelist := { queue.freelist with
      list := Function.update queue.freelist.list cell ⟨queue.elemAt cell, pointer⟩ } }

/-- `cell->elem = value` -/
def setElem (queue : Queue α poolSize) (cell : Cell poolSize) (value : α) : Queue α poolSize :=
  { queue with freelist := { queue.freelist with
      list := Function.update queue.freelist.list cell ⟨value, queue.next cell⟩ } }

def setTail (queue : Queue α poolSize) (cell : Cell poolSize) : Queue α poolSize :=
  { queue with tail := cell }

def setFreelistTail (queue : Queue α poolSize) (cell : Cell poolSize) : Queue α poolSize :=
  { queue with freelist := { queue.freelist with tail := cell } }

/-- The cells that the loop of `init` and the assignments after it write, over
whatever `malloc` returned. -/
def initialCells (zero : α) (garbage : Cell poolSize → Element α poolSize) :
    Cell poolSize → Element α poolSize :=
  let linked := (List.finRange poolSize).foldl
    (fun list i => Function.update list i.succ.castSucc ⟨zero, some i.succ.succ⟩) garbage
  Function.update (Function.update linked 0 ⟨zero, none⟩) (Fin.last (poolSize + 1)) ⟨zero, none⟩

/-- `init`: the parameter is an `int` that the function first increases by two,
so for the two largest values there is no queue. -/
def init (zero : α) (garbage : Cell poolSize → Element α poolSize) :
    Option (Queue α poolSize) :=
  if poolSize + 2 ≤ intMax then
    some {
      freelist := {
        list := initialCells zero garbage
        head := 1
        tail := Fin.last (poolSize + 1) }
      head := 0
      tail := 0 }
  else none

def clear (queue : Queue α poolSize) : Queue α poolSize :=
  let freed := match queue.next queue.head with
    | some first =>
        (queue.setNext queue.freelist.tail (some first)).setFreelistTail queue.tail
    | none => queue
  (freed.setNext freed.head none).setTail freed.head

def enqueue (queue : Queue α poolSize) (value : α) : Except Halt (Queue α poolSize) :=
  if queue.freelist.head = queue.freelist.tail then .error (.exit 1)
  else match queue.next queue.freelist.head with
    | none => .error .fault
    | some free =>
        let unlinked := queue.setNext queue.freelist.head (queue.next free)
        let shortened := if unlinked.next free = none then
            unlinked.setFreelistTail unlinked.freelist.head
          else unlinked
        let filled := (shortened.setElem free value).setNext free none
        .ok ((filled.setNext filled.tail (some free)).setTail free)

/-- The common part of `dequeue` and `dequeue_inplace` on a queue whose head is
not its tail: unlink the first cell, clear it and return it to the free list. -/
def takeFirst (zero : α) (queue : Queue α poolSize) : Except Halt (Queue α poolSize × α) :=
  match queue.next queue.head with
  | none => .error .fault
  | some elem =>
      let value := queue.elemAt elem
      let unlinked := queue.setNext queue.head (queue.next elem)
      let shortened := if unlinked.next elem = none then unlinked.setTail unlinked.head
        else unlinked
      let cleared := (shortened.setElem elem zero).setNext elem none
      .ok ((cleared.setNext cleared.freelist.tail (some elem)).setFreelistTail elem, value)

def dequeue (zero : α) (queue : Queue α poolSize) : Except Halt (Queue α poolSize × α) :=
  if queue.head = queue.tail then .ok (queue, zero)
  else queue.takeFirst zero

/-- The result is the status and the caller's output variable, whose value
before the call is `out`. -/
def dequeueInplace (zero : α) (queue : Queue α poolSize) (out : α) :
    Except Halt (Queue α poolSize × Int × α) :=
  if queue.head = queue.tail then .ok (queue, -1, out)
  else do
    let (rest, value) ← queue.takeFirst zero
    return (rest, 0, value)

end Queue

end LinkedList

end Ympi
