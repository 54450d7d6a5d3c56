import Mathlib.Data.List.Perm.Basic
import Mathlib.Logic.Function.Basic

/-! # Singly linked chains over a pointer store

A store of `next` pointers is a function from cells to an optional cell. A chain
starts at a sentinel cell and follows `next` until it ends. Since the store is a
function, a terminated chain never revisits a cell. The update lemmas cover what
list manipulation in place does: the first cell of one chain moves to the end of
another, and one chain is spliced behind another.
-/

namespace Ympi.Foundation

universe u

variable {Cell : Type u}

/-- Following `next` from `first` visits exactly `cells`, in order, and ends. -/
def Chain (next : Cell → Option Cell) : Cell → List Cell → Prop
  | first, [] => next first = none
  | first, cell :: cells => next first = some cell ∧ Chain next cell cells

/-- The last cell of a chain, its sentinel when it is empty. -/
abbrev chainLast (first : Cell) (cells : List Cell) : Cell :=
  cells.getLastD first

namespace Chain

variable {next next' : Cell → Option Cell} {first : Cell} {cells : List Cell}

theorem next_first (chain : Chain next first cells) : next first = cells.head? := by
  cases cells with
  | nil => exact chain
  | cons cell rest => exact chain.1

/-- A chain depends only on the `next` pointers of its own cells. -/
theorem congr (chain : Chain next first cells)
    (agree : ∀ cell ∈ first :: cells, next' cell = next cell) : Chain next' first cells := by
  induction cells generalizing first with
  | nil =>
      have same := agree first (List.mem_singleton_self first)
      exact same.trans chain
  | cons cell rest ih =>
      refine ⟨(agree first List.mem_cons_self).trans chain.1, ih chain.2 ?_⟩
      intro other member
      exact agree other (List.mem_cons_of_mem first member)

/-- The same chain in two stores has the same `next` pointers. -/
theorem next_eq (chain : Chain next first cells) (chain' : Chain next' first cells) {cell : Cell}
    (member : cell ∈ first :: cells) : next cell = next' cell := by
  induction cells generalizing first with
  | nil =>
      rw [List.mem_singleton.mp member]
      exact chain.trans chain'.symm
  | cons following rest ih =>
      rcases List.mem_cons.mp member with rfl | later
      · exact chain.1.trans chain'.1.symm
      · exact ih chain.2 chain'.2 later

/-- The store determines the chain from a sentinel. -/
theorem unique {cells' : List Cell} (chain : Chain next first cells)
    (chain' : Chain next first cells') : cells = cells' := by
  induction cells generalizing first cells' with
  | nil =>
      have ends := chain'.next_first
      rw [show next first = none from chain] at ends
      exact (List.head?_eq_none_iff.mp ends.symm).symm
  | cons cell rest ih =>
      cases cells' with
      | nil =>
          have ends : next first = none := chain'
          rw [chain.1] at ends
          exact absurd ends (Option.some_ne_none cell)
      | cons cell' rest' =>
          have same : cell = cell' := Option.some.inj (chain.1.symm.trans chain'.1)
          subst same
          rw [ih chain.2 chain'.2]

/-- A list is the chain from a sentinel when each cell of the two links to the
next one of the list. -/
theorem of_getElem?
    (links : ∀ (i : ℕ) (cell : Cell), (first :: cells)[i]? = some cell → next cell = cells[i]?) :
    Chain next first cells := by
  induction cells generalizing first with
  | nil => exact links 0 first rfl
  | cons cell rest ih =>
      refine ⟨links 0 first rfl, ih fun i other located => ?_⟩
      exact links (i + 1) other located

end Chain

theorem chainLast_mem (first : Cell) (cells : List Cell) :
    chainLast first cells ∈ first :: cells := by
  cases cells with
  | nil => exact List.mem_singleton_self first
  | cons cell rest =>
      rw [chainLast, List.getLastD_cons]
      exact List.mem_cons_of_mem first List.getLastD_mem_cons

theorem chainLast_append_cons (first cell : Cell) (cells rest : List Cell) :
    chainLast first (cells ++ cell :: rest) = chainLast cell rest := by
  induction cells generalizing first with
  | nil => exact List.getLastD_cons
  | cons head cells ih =>
      rw [List.cons_append, chainLast, List.getLastD_cons]
      exact ih head

/-- In a chain without repetition, the last cell is the sentinel only when the
chain is empty. -/
theorem chainLast_eq_first_iff {first : Cell} {cells : List Cell} (fresh : first ∉ cells) :
    first = chainLast first cells ↔ cells = [] := by
  constructor
  · intro same
    cases cells with
    | nil => rfl
    | cons cell rest =>
        rw [chainLast, List.getLastD_cons] at same
        have member : chainLast cell rest ∈ cell :: rest := chainLast_mem cell rest
        exact absurd (same ▸ member) fresh
  · rintro rfl
    rfl

namespace Chain

section Unlink

variable {next : Cell → Option Cell} {first cell : Cell} {cells : List Cell}

/-- When the cell taken off ended the chain, the sentinel is left. -/
theorem chainLast_ended (chain : Chain next first (cell :: cells)) (ended : next cell = none) :
    chainLast first cells = first := by
  have followed := chain.2.next_first
  rw [ended] at followed
  cases cells with
  | nil => rfl
  | cons following rest => cases followed

/-- When a cell follows the one taken off, the last cell stays. -/
theorem chainLast_continues (chain : Chain next first (cell :: cells))
    (continues : next cell ≠ none) : chainLast first (cell :: cells) = chainLast first cells := by
  cases cells with
  | nil => exact absurd chain.2.next_first continues
  | cons following rest =>
      rw [chainLast, chainLast, List.getLastD_cons, List.getLastD_cons, List.getLastD_cons]

end Unlink

variable [DecidableEq Cell] {next : Cell → Option Cell}

/-- Link a second chain's cells behind the last cell of a first one. -/
theorem splice {first second : Cell} {cells rest : List Cell}
    (chain : Chain next first cells) (behind : Chain next second rest)
    (distinct : (first :: cells).Nodup)
    (apart : ∀ cell ∈ second :: rest, cell ∉ first :: cells) :
    Chain (Function.update next (chainLast first cells) (some second)) first
      (cells ++ second :: rest) := by
  induction cells generalizing first with
  | nil =>
      refine ⟨Function.update_self .., behind.congr ?_⟩
      intro cell member
      have different : cell ≠ first := fun same => apart cell member (same ▸ List.mem_cons_self)
      exact Function.update_of_ne different _ _
  | cons cell cells ih =>
      have fresh := List.nodup_cons.mp distinct
      rw [chainLast, List.getLastD_cons]
      refine ⟨?_, ih chain.2 fresh.2 fun other member inside =>
        apart other member (List.mem_cons_of_mem first inside)⟩
      have different : first ≠ chainLast cell cells :=
        fun same => fresh.1 (same ▸ chainLast_mem cell cells)
      rw [Function.update_of_ne different]
      exact chain.1

/-- Take the first cell off a chain by redirecting its sentinel. -/
theorem unlink {first cell : Cell} {cells : List Cell}
    (chain : Chain next first (cell :: cells)) (distinct : (first :: cell :: cells).Nodup) :
    Chain (Function.update next first (next cell)) first cells := by
  have fresh := (List.nodup_cons.mp distinct).1
  have tail := chain.2
  cases cells with
  | nil =>
      have ends : next cell = none := tail
      exact (Function.update_self first (next cell) next).trans ends
  | cons following rest =>
      refine ⟨(Function.update_self first (next cell) next).trans tail.1, tail.2.congr ?_⟩
      intro other member
      have different : other ≠ first :=
        fun same => fresh (same ▸ List.mem_cons_of_mem cell member)
      exact Function.update_of_ne different _ _

/-- The store after the first cell behind `source` has been moved behind the last
cell `last` of another chain. -/
def transferNext (next : Cell → Option Cell) (source cell last : Cell) : Cell → Option Cell :=
  Function.update (Function.update (Function.update next source (next cell)) cell none) last
    (some cell)

/-- **Transfer.** Moving the first cell of one chain to the end of a disjoint one
leaves two chains over the same cells. -/
theorem transfer {source target cell : Cell} {cells others : List Cell}
    (chain : Chain next source (cell :: cells)) (other : Chain next target others)
    (distinct : ((source :: cell :: cells) ++ (target :: others)).Nodup) :
    Chain (transferNext next source cell (chainLast target others)) source cells ∧
      Chain (transferNext next source cell (chainLast target others)) target
        (others ++ [cell]) := by
  obtain ⟨ownDistinct, otherDistinct, apart⟩ := List.nodup_append.mp distinct
  have lastMem := chainLast_mem target others
  have awayFromOther : ∀ p ∈ target :: others, p ≠ source ∧ p ≠ cell := fun p member =>
    ⟨fun same => apart source List.mem_cons_self p member same.symm,
      fun same => apart cell (List.mem_cons_of_mem _ List.mem_cons_self) p member same.symm⟩
  have sourceFresh := List.nodup_cons.mp ownDistinct
  have cellFresh := List.nodup_cons.mp sourceFresh.2
  constructor
  · apply (chain.unlink ownDistinct).congr
    intro p member
    have notLast : p ≠ chainLast target others := by
      rintro rfl
      rcases List.mem_cons.mp member with same | inside
      · exact (awayFromOther _ lastMem).1 same
      · exact apart _ (List.mem_cons_of_mem _ (List.mem_cons_of_mem _ inside)) _ lastMem rfl
    have notCell : p ≠ cell := by
      rintro rfl
      rcases List.mem_cons.mp member with same | inside
      · exact sourceFresh.1 (same ▸ List.mem_cons_self)
      · exact cellFresh.1 inside
    rw [transferNext, Function.update_of_ne notLast, Function.update_of_ne notCell]
  · have kept : Chain (Function.update (Function.update next source (next cell)) cell none)
        target others := other.congr fun p member => by
      rw [Function.update_of_ne (awayFromOther p member).2,
        Function.update_of_ne (awayFromOther p member).1]
    have ended : Chain (Function.update (Function.update next source (next cell)) cell none)
        cell [] := Function.update_self ..
    apply kept.splice ended otherDistinct
    intro p single inside
    rw [List.mem_singleton.mp single] at inside
    exact (awayFromOther cell inside).2 rfl

end Chain

end Ympi.Foundation
