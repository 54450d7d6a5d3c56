import Ympi.Foundation.Chain
import Ympi.LinkedList.Basic

/-! # What a pooled linked list represents

A queue represents a list of stored cells and a list of free cells: the chains
behind its two sentinels, which together use each cell of the array once. Every
operation keeps such a representation, and the chains afterwards are those of the
operation on lists. The null checks that the operations omit are never needed.
-/

namespace Ympi.LinkedList

open Foundation

universe u

variable {α : Type u} {poolSize : ℕ}

namespace Queue

section Updates

variable (queue : Queue α poolSize) (cell : Cell poolSize)

@[simp] theorem next_setNext (pointer : Option (Cell poolSize)) :
    (queue.setNext cell pointer).next = Function.update queue.next cell pointer := by
  funext other
  by_cases same : other = cell
  · subst same
    simp [next, setNext]
  · simp [next, setNext, same]

@[simp] theorem next_setElem (value : α) : (queue.setElem cell value).next = queue.next := by
  funext other
  by_cases same : other = cell
  · subst same
    simp [next, setElem]
  · simp [next, setElem, same]

@[simp] theorem elemAt_setNext (pointer : Option (Cell poolSize)) :
    (queue.setNext cell pointer).elemAt = queue.elemAt := by
  funext other
  by_cases same : other = cell
  · subst same
    simp [elemAt, setNext]
  · simp [elemAt, setNext, same]

@[simp] theorem elemAt_setElem (value : α) :
    (queue.setElem cell value).elemAt = Function.update queue.elemAt cell value := by
  funext other
  by_cases same : other = cell
  · subst same
    simp [elemAt, setElem]
  · simp [elemAt, setElem, same]

@[simp] theorem next_setTail : (queue.setTail cell).next = queue.next := rfl

@[simp] theorem next_setFreelistTail : (queue.setFreelistTail cell).next = queue.next := rfl

@[simp] theorem elemAt_setTail : (queue.setTail cell).elemAt = queue.elemAt := rfl

@[simp] theorem elemAt_setFreelistTail : (queue.setFreelistTail cell).elemAt = queue.elemAt := rfl

@[simp] theorem head_setNext (pointer : Option (Cell poolSize)) :
    (queue.setNext cell pointer).head = queue.head := rfl

@[simp] theorem tail_setNext (pointer : Option (Cell poolSize)) :
    (queue.setNext cell pointer).tail = queue.tail := rfl

@[simp] theorem freelistHead_setNext (pointer : Option (Cell poolSize)) :
    (queue.setNext cell pointer).freelist.head = queue.freelist.head := rfl

@[simp] theorem freelistTail_setNext (pointer : Option (Cell poolSize)) :
    (queue.setNext cell pointer).freelist.tail = queue.freelist.tail := rfl

@[simp] theorem head_setElem (value : α) : (queue.setElem cell value).head = queue.head := rfl

@[simp] theorem tail_setElem (value : α) : (queue.setElem cell value).tail = queue.tail := rfl

@[simp] theorem freelistHead_setElem (value : α) :
    (queue.setElem cell value).freelist.head = queue.freelist.head := rfl

@[simp] theorem freelistTail_setElem (value : α) :
    (queue.setElem cell value).freelist.tail = queue.freelist.tail := rfl

@[simp] theorem head_setTail : (queue.setTail cell).head = queue.head := rfl

@[simp] theorem tail_setTail : (queue.setTail cell).tail = cell := rfl

@[simp] theorem freelistHead_setTail :
    (queue.setTail cell).freelist.head = queue.freelist.head := rfl

@[simp] theorem freelistTail_setTail :
    (queue.setTail cell).freelist.tail = queue.freelist.tail := rfl

@[simp] theorem head_setFreelistTail : (queue.setFreelistTail cell).head = queue.head := rfl

@[simp] theorem tail_setFreelistTail : (queue.setFreelistTail cell).tail = queue.tail := rfl

@[simp] theorem freelistHead_setFreelistTail :
    (queue.setFreelistTail cell).freelist.head = queue.freelist.head := rfl

@[simp] theorem freelistTail_setFreelistTail :
    (queue.setFreelistTail cell).freelist.tail = cell := rfl

end Updates

/-- `used` are the cells of the stored elements, oldest first, and `free` those
of the free list. -/
structure Represents (queue : Queue α poolSize) (used free : List (Cell poolSize)) : Prop where
  head_eq : queue.head = 0
  freelistHead_eq : queue.freelist.head = 1
  usedChain : Chain queue.next queue.head used
  freeChain : Chain queue.next queue.freelist.head free
  tail_eq : queue.tail = chainLast queue.head used
  freelistTail_eq : queue.freelist.tail = chainLast queue.freelist.head free
  covers : ((queue.head :: used) ++ (queue.freelist.head :: free)).Perm
    (List.finRange (poolSize + 2))

namespace Represents

variable {queue : Queue α poolSize} {used free : List (Cell poolSize)}

theorem distinct (represents : queue.Represents used free) :
    ((queue.head :: used) ++ (queue.freelist.head :: free)).Nodup :=
  represents.covers.nodup_iff.mpr (List.nodup_finRange _)

/-- The usable cells are the stored and the free ones. -/
theorem length_add (represents : queue.Represents used free) :
    used.length + free.length = poolSize := by
  have lengths := represents.covers.length_eq
  simp only [List.length_append, List.length_cons, List.length_finRange] at lengths
  omega

theorem head_eq_tail_iff (represents : queue.Represents used free) :
    queue.head = queue.tail ↔ used = [] := by
  rw [represents.tail_eq]
  exact chainLast_eq_first_iff (List.nodup_cons.mp (List.nodup_append.mp represents.distinct).1).1

theorem freelistHead_eq_tail_iff (represents : queue.Represents used free) :
    queue.freelist.head = queue.freelist.tail ↔ free = [] := by
  rw [represents.freelistTail_eq]
  exact chainLast_eq_first_iff
    (List.nodup_cons.mp (List.nodup_append.mp represents.distinct).2.1).1

/-- The queue determines the cells it represents. -/
theorem unique {used' free' : List (Cell poolSize)} (represents : queue.Represents used free)
    (other : queue.Represents used' free') : used = used' ∧ free = free' :=
  ⟨represents.usedChain.unique other.usedChain, represents.freeChain.unique other.freeChain⟩

end Represents

end Queue

end Ympi.LinkedList
