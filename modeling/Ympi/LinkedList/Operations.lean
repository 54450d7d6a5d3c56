import Ympi.LinkedList.Represents

/-! # The operations on represented lists

For each operation, the cells that the queue represents afterwards and the values
stored in them.
-/

namespace Ympi.LinkedList.Queue

open Foundation

universe u

variable {α : Type u} {poolSize : ℕ}

section Init

private theorem foldl_update_apply {ι β γ : Type*} [DecidableEq ι] [DecidableEq β]
    (place : ι → β) (placed : Function.Injective place) (value : ι → γ) (indices : List ι)
    (start : β → γ) (index : ι) :
    indices.foldl (fun store i => Function.update store (place i) (value i)) start (place index) =
      if index ∈ indices then value index else start (place index) := by
  induction indices generalizing start with
  | nil => simp
  | cons head rest ih =>
      rw [List.foldl_cons, ih]
      by_cases same : index = head
      · subst same
        simp
      · have apart : place index ≠ place head := fun equal => same (placed equal)
        simp [same, apart]

variable (zero : α) (garbage : Cell poolSize → Element α poolSize)

theorem initialCells_zero : initialCells zero garbage 0 = ⟨zero, none⟩ := by
  have apart : (0 : Cell poolSize) ≠ Fin.last (poolSize + 1) := by
    simp [Fin.ext_iff]
  simp [initialCells, apart]

theorem initialCells_last : initialCells zero garbage (Fin.last (poolSize + 1)) = ⟨zero, none⟩ := by
  simp [initialCells]

theorem initialCells_inner (i : Fin poolSize) :
    initialCells zero garbage i.succ.castSucc = ⟨zero, some i.succ.succ⟩ := by
  have notLast : i.succ.castSucc ≠ Fin.last (poolSize + 1) := (Fin.castSucc_lt_last i.succ).ne
  have notZero : i.succ.castSucc ≠ 0 := by
    simp [Fin.ext_iff]
  have placed : Function.Injective fun i : Fin poolSize => (i.succ.castSucc : Cell poolSize) :=
    (Fin.castSucc_injective _).comp (Fin.succ_injective _)
  rw [initialCells, Function.update_of_ne notLast, Function.update_of_ne notZero,
    foldl_update_apply (fun i : Fin poolSize => (i.succ.castSucc : Cell poolSize)) placed
      (fun i => (⟨zero, some i.succ.succ⟩ : Element α poolSize)),
    if_pos (List.mem_finRange i)]

/-- The free cells of a new queue, in the order of the array. -/
def initialFree (poolSize : ℕ) : List (Cell poolSize) :=
  (List.finRange poolSize).map fun i => i.succ.succ

/-- A new queue stores nothing and all its usable cells are free. -/
theorem init_represents {queue : Queue α poolSize} (made : init zero garbage = some queue) :
    queue.Represents [] (initialFree poolSize) := by
  unfold init at made
  split at made
  · cases made
    refine ⟨rfl, rfl, ?_, ?_, rfl, ?_, ?_⟩
    · exact congrArg Element.next (initialCells_zero zero garbage)
    · apply Chain.of_getElem?
      intro i cell located
      change (initialCells zero garbage cell).next = _
      have bound : i < poolSize + 1 := by
        have within := (List.getElem?_eq_some_iff.mp located).1
        simpa [initialFree] using within
      have position : cell = (⟨i + 1, by omega⟩ : Cell poolSize) := by
        cases i with
        | zero => exact (Option.some.inj located).symm
        | succ i =>
            have inside : i < poolSize := by omega
            simp [initialFree, inside] at located
            exact located.symm
      subst position
      by_cases last : i = poolSize
      · subst last
        rw [show (⟨i + 1, by omega⟩ : Cell i) = Fin.last (i + 1) from rfl, initialCells_last]
        simp [initialFree]
      · have inside : i < poolSize := by omega
        have inner := initialCells_inner zero garbage ⟨i, inside⟩
        rw [show (⟨i + 1, by omega⟩ : Cell poolSize) = (Fin.succ ⟨i, inside⟩).castSucc from rfl,
          inner]
        simp [initialFree, inside]
    · cases poolSize with
      | zero => rfl
      | succ size =>
          rw [initialFree, List.finRange_succ_last, List.map_append, List.map_singleton, chainLast,
            List.getLastD_concat]
          rfl
    · change ([0] ++ 1 :: initialFree poolSize).Perm _
      rw [List.finRange_succ, List.finRange_succ, List.map_cons, List.map_map]
      exact List.Perm.refl _
  · cases made

end Init

namespace Represents

variable {queue : Queue α poolSize} {used free : List (Cell poolSize)}

/-- Without a free cell `enqueue` reports the list as full and ends the process. -/
theorem enqueue_full (represents : queue.Represents used []) (value : α) :
    queue.enqueue value = .error (.exit 1) := by
  unfold enqueue
  rw [if_pos (represents.freelistHead_eq_tail_iff.mpr rfl)]

/-- `enqueue` moves the first free cell, with the value, behind the stored ones. -/
theorem enqueue_ok {cell : Cell poolSize} (represents : queue.Represents used (cell :: free))
    (value : α) :
    ∃ result, queue.enqueue value = .ok result ∧ result.Represents (used ++ [cell]) free ∧
      result.elemAt = Function.update queue.elemAt cell value := by
  have roomLeft : ¬ queue.freelist.head = queue.freelist.tail := fun same =>
    List.cons_ne_nil _ _ (represents.freelistHead_eq_tail_iff.mp same)
  have firstFree : queue.next queue.freelist.head = some cell := represents.freeChain.1
  have rotated : ((queue.freelist.head :: cell :: free) ++ (queue.head :: used)).Nodup :=
    (List.perm_append_comm.nodup_iff).mp represents.distinct
  have cellNotHead : cell ≠ queue.freelist.head := fun same =>
    (List.nodup_cons.mp (List.nodup_append.mp rotated).1).1 (same ▸ List.mem_cons_self)
  obtain ⟨freeAfter, usedAfter⟩ :=
    represents.freeChain.transfer represents.usedChain rotated
  rw [← represents.tail_eq] at usedAfter freeAfter
  refine ⟨_, by
    unfold enqueue
    rw [if_neg roomLeft, firstFree], ?_, ?_⟩
  · constructor
    · split <;> simpa using represents.head_eq
    · split <;> simpa using represents.freelistHead_eq
    · split <;> simpa [Chain.transferNext, cellNotHead] using usedAfter
    · split <;> simpa [Chain.transferNext, cellNotHead] using freeAfter
    · split <;> simp [chainLast]
    · split
      next ended =>
        rw [next_setNext, Function.update_of_ne cellNotHead] at ended
        exact (represents.freeChain.chainLast_ended ended).symm
      next continues =>
        rw [next_setNext, Function.update_of_ne cellNotHead] at continues
        exact represents.freelistTail_eq.trans (represents.freeChain.chainLast_continues continues)
    · have moved : ((queue.head :: used ++ [cell]) ++ (queue.freelist.head :: free)).Perm
          ((queue.head :: used) ++ (queue.freelist.head :: cell :: free)) := by
        rw [List.append_assoc]
        exact (List.Perm.swap _ _ _).append_left _
      split <;> simpa using moved.trans represents.covers
  · split <;> simp

/-- Taking the first stored cell yields its value and makes the cell free. -/
theorem takeFirst_ok {cell : Cell poolSize} (represents : queue.Represents (cell :: used) free)
    (zero : α) :
    ∃ result, queue.takeFirst zero = .ok (result, queue.elemAt cell) ∧
      result.Represents used (free ++ [cell]) ∧
      result.elemAt = Function.update queue.elemAt cell zero := by
  have firstUsed : queue.next queue.head = some cell := represents.usedChain.1
  have cellNotHead : cell ≠ queue.head := fun same =>
    (List.nodup_cons.mp (List.nodup_append.mp represents.distinct).1).1
      (same ▸ List.mem_cons_self)
  obtain ⟨usedAfter, freeAfter⟩ :=
    represents.usedChain.transfer represents.freeChain represents.distinct
  rw [← represents.freelistTail_eq] at usedAfter freeAfter
  refine ⟨_, by
    unfold takeFirst
    rw [firstUsed], ?_, ?_⟩
  · constructor
    · split <;> simpa using represents.head_eq
    · split <;> simpa using represents.freelistHead_eq
    · split <;> simpa [Chain.transferNext, cellNotHead] using usedAfter
    · split <;> simpa [Chain.transferNext, cellNotHead] using freeAfter
    · split
      next ended =>
        rw [next_setNext, Function.update_of_ne cellNotHead] at ended
        exact (represents.usedChain.chainLast_ended ended).symm
      next continues =>
        rw [next_setNext, Function.update_of_ne cellNotHead] at continues
        exact represents.tail_eq.trans (represents.usedChain.chainLast_continues continues)
    · split <;> simp [chainLast]
    · have moved : ((queue.head :: used) ++ (queue.freelist.head :: (free ++ [cell]))).Perm
          ((queue.head :: cell :: used) ++ (queue.freelist.head :: free)) := by
        rw [← List.cons_append, ← List.append_assoc]
        apply (List.perm_append_singleton cell _).trans
        exact List.Perm.swap _ _ _
      split <;> simpa using moved.trans represents.covers
  · split <;> simp

/-- `clear` splices the stored cells behind the free ones. -/
theorem clear_represents (represents : queue.Represents used free) :
    queue.clear.Represents [] (free ++ used) ∧ queue.clear.elemAt = queue.elemAt := by
  obtain ⟨usedDistinct, freeDistinct, apart⟩ := List.nodup_append.mp represents.distinct
  have headNotFree : queue.head ∉ queue.freelist.head :: free := fun member =>
    apart _ List.mem_cons_self _ member rfl
  cases used with
  | nil =>
      have ended : queue.next queue.head = none := represents.usedChain
      have same : Function.update queue.next queue.head none = queue.next := by
        rw [← ended, Function.update_eq_self]
      have cleared : queue.clear = (queue.setNext queue.head none).setTail queue.head := by
        unfold clear
        rw [ended]
      rw [cleared, List.append_nil]
      refine ⟨?_, by simp⟩
      constructor
      · simpa using represents.head_eq
      · simpa using represents.freelistHead_eq
      · simp [Chain]
      · simpa [same] using represents.freeChain
      · rfl
      · simpa using represents.freelistTail_eq
      · simpa using represents.covers
  | cons first rest =>
      have started : queue.next queue.head = some first := represents.usedChain.1
      have cleared : queue.clear =
          (((queue.setNext queue.freelist.tail (some first)).setFreelistTail queue.tail).setNext
            queue.head none).setTail queue.head := by
        unfold clear
        rw [started]
        rfl
      have spliced := represents.freeChain.splice represents.usedChain.2 freeDistinct
        fun cell member inside => apart cell (List.mem_cons_of_mem _ member) cell inside rfl
      rw [← represents.freelistTail_eq] at spliced
      have headFresh := (List.nodup_cons.mp usedDistinct).1
      rw [cleared]
      refine ⟨?_, by simp⟩
      constructor
      · simpa using represents.head_eq
      · simpa using represents.freelistHead_eq
      · simp [Chain]
      · have kept : Chain (Function.update
            (Function.update queue.next queue.freelist.tail (some first)) queue.head none)
            queue.freelist.head (free ++ first :: rest) := spliced.congr fun cell member => by
          refine Function.update_of_ne ?_ _ _
          rintro rfl
          rw [← List.cons_append] at member
          rcases List.mem_append.mp member with inFree | inUsed
          · exact headNotFree inFree
          · exact headFresh inUsed
        simpa using kept
      · rfl
      · have lastUsed := represents.tail_eq
        rw [chainLast, List.getLastD_cons] at lastUsed
        exact lastUsed.trans (chainLast_append_cons _ _ _ _).symm
      · have moved : (queue.head :: (queue.freelist.head :: (free ++ first :: rest))).Perm
            (queue.head :: ((first :: rest) ++ (queue.freelist.head :: free))) := by
          rw [← List.cons_append]
          exact List.perm_append_comm.cons _
        simpa using moved.trans represents.covers

end Represents

end Ympi.LinkedList.Queue
