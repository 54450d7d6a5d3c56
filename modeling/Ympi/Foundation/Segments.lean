import Mathlib.Data.List.Sort
import Mathlib.Order.Lattice
import Mathlib.Data.List.Basic
import Ympi.Foundation.Results

/-! # Sorted lists and their segments

A list sorted by a key falls into segments of equal keys: its runs. For an increasing
sequence of keys they are the elements of each key in turn.
-/

namespace Ympi.Foundation

universe u v

variable {α : Type u} {β : Type v} [LinearOrder β]

section SortBy

/-- Sort a list by a key. -/
def sortBy (key : α → β) (items : List α) : List α :=
  items.insertionSort fun first second => key first ≤ key second

variable {key : α → β} {items sorted : List α}

theorem sortBy_perm (key : α → β) (items : List α) : (sortBy key items).Perm items :=
  List.perm_insertionSort _ _

theorem mem_sortBy {item : α} : item ∈ sortBy key items ↔ item ∈ items :=
  (sortBy_perm key items).mem_iff

theorem length_sortBy : (sortBy key items).length = items.length :=
  (sortBy_perm key items).length_eq

theorem sortBy_pairwise (key : α → β) (items : List α) :
    (sortBy key items).Pairwise fun first second => key first ≤ key second := by
  have total : Std.Total fun first second : α => key first ≤ key second :=
    ⟨fun first second => le_total (key first) (key second)⟩
  have trans : IsTrans α fun first second => key first ≤ key second :=
    ⟨fun _ _ _ => le_trans⟩
  exact List.pairwise_insertionSort _ _

/-- In a list with increasing keys an element is known by its key. -/
theorem eq_of_key_eq (increasing : sorted.Pairwise fun first second => key first < key second)
    {first second : α} (here : first ∈ sorted) (there : second ∈ sorted)
    (same : key first = key second) : first = second := by
  have distinct : (sorted.map key).Nodup := by
    rw [List.Nodup, List.pairwise_map]
    exact increasing.imp fun below => below.ne
  exact List.inj_on_of_nodup_map distinct here there same

/-- A list with increasing keys is what sorting a permutation of it gives. -/
theorem sortBy_eq (increasing : sorted.Pairwise fun first second => key first < key second)
    (same : sorted.Perm items) : sortBy key items = sorted := by
  apply List.Perm.eq_of_pairwise ?_ (sortBy_pairwise key items)
    (increasing.imp fun below => below.le) ((sortBy_perm key items).trans same.symm)
  intro first second here there forth back
  have listed : first ∈ sorted := same.mem_iff.mpr (mem_sortBy.mp here)
  exact eq_of_key_eq increasing listed there (le_antisymm forth back)

/-- Sorting by a key that no two elements share gives increasing keys. -/
theorem sortBy_increasing (distinct : ∀ first ∈ items, ∀ second ∈ items,
    key first = key second → first = second) (nodup : items.Nodup) :
    (sortBy key items).Pairwise fun first second => key first < key second := by
  have apart := (sortBy_perm key items).nodup_iff.mpr nodup
  refine (List.Pairwise.and (sortBy_pairwise key items) apart).imp_of_mem ?_
  intro first second here there ordered
  refine lt_of_le_of_ne ordered.1 ?_
  intro same
  exact ordered.2 (distinct first (mem_sortBy.mp here) second (mem_sortBy.mp there) same)

end SortBy

section Runs

variable (key : α → β)

/-- The runs of a list that goes on with `rest` after the run `run` with key `last`. -/
def runsFrom (run : List α) (last : β) : List α → List (List α)
  | [] => [run]
  | item :: rest =>
      if key item ≠ last then run :: runsFrom [item] (key item) rest
      else runsFrom (run ++ [item]) last rest

/-- The segments of a list with equal keys. -/
def runs : List α → List (List α)
  | [] => []
  | item :: rest => runsFrom key [item] (key item) rest

variable {key}

theorem runsFrom_flatten (run : List α) (last : β) (rest : List α) :
    (runsFrom key run last rest).flatten = run ++ rest := by
  induction rest generalizing run last with
  | nil => simp [runsFrom]
  | cons item rest ih =>
      rw [runsFrom]
      split
      · rw [List.flatten_cons, ih]
        simp
      · rw [ih]
        simp

theorem runs_flatten (items : List α) : (runs key items).flatten = items := by
  cases items with
  | nil => rfl
  | cons item rest => exact runsFrom_flatten [item] (key item) rest

/-- Elements of one key only are all the elements of that key. -/
theorem filter_key_self {run : List α} {last : β} (same : ∀ item ∈ run, key item = last) :
    (run.filter fun item => key item = last) = run := by
  rw [List.filter_eq_self]
  intro item member
  exact decide_eq_true (same item member)

theorem filter_key_above {items : List α} {value : β} (above : ∀ item ∈ items, value < key item) :
    (items.filter fun item => key item = value) = [] := by
  rw [List.filter_eq_nil_iff]
  intro item member same
  exact absurd (of_decide_eq_true same) (above item member).ne'

theorem filter_key_below {items : List α} {value : β} (below : ∀ item ∈ items, key item < value) :
    (items.filter fun item => key item = value) = [] := by
  rw [List.filter_eq_nil_iff]
  intro item member same
  exact absurd (of_decide_eq_true same) (below item member).ne

/-- The runs from a run on are the elements of each key in turn. -/
theorem runsFrom_eq (run : List α) (last : β) (rest : List α)
    (same : ∀ item ∈ run, key item = last) (above : ∀ item ∈ rest, last ≤ key item)
    (sorted : rest.Pairwise fun first second => key first ≤ key second) (some : run ≠ []) :
    ∃ keys, (last :: keys).Pairwise (· < ·) ∧
      (∀ value, value ∈ last :: keys ↔ ∃ item ∈ run ++ rest, key item = value) ∧
      runsFrom key run last rest =
        (last :: keys).map fun value => (run ++ rest).filter fun item => key item = value := by
  induction rest generalizing run last with
  | nil =>
      obtain ⟨first, others, rfl⟩ := List.exists_cons_of_ne_nil some
      refine ⟨[], List.pairwise_singleton _ _, ?_, ?_⟩
      · intro value
        rw [List.mem_singleton, List.append_nil]
        refine ⟨?_, ?_⟩
        · rintro rfl
          exact ⟨first, List.mem_cons_self, same first List.mem_cons_self⟩
        · rintro ⟨item, member, rfl⟩
          exact same item member
      · rw [runsFrom, List.append_nil, List.map_singleton, filter_key_self same]
  | cons item rest ih =>
      have later := (List.pairwise_cons.mp sorted).1
      have sorted' := (List.pairwise_cons.mp sorted).2
      rw [runsFrom]
      split
      next apart =>
        have next : last < key item :=
          lt_of_le_of_ne (above item List.mem_cons_self) (Ne.symm apart)
        obtain ⟨keys, increasing, members, split⟩ := ih [item] (key item)
          (by simp) later sorted' (by simp)
        have beyond : ∀ value ∈ key item :: keys, last < value := by
          intro value member
          rcases List.mem_cons.mp member with rfl | further
          · exact next
          · exact next.trans ((List.pairwise_cons.mp increasing).1 value further)
        refine ⟨key item :: keys, List.pairwise_cons.mpr ⟨beyond, increasing⟩, ?_, ?_⟩
        · intro value
          rw [List.mem_cons, members]
          simp only [List.mem_append, List.singleton_append, List.mem_cons]
          refine ⟨?_, ?_⟩
          · rintro (rfl | ⟨other, member, rfl⟩)
            · obtain ⟨first, others, rfl⟩ := List.exists_cons_of_ne_nil some
              exact ⟨first, Or.inl List.mem_cons_self, same first List.mem_cons_self⟩
            · exact ⟨other, Or.inr member, rfl⟩
          · rintro ⟨other, before | member, rfl⟩
            · exact Or.inl (same other before)
            · exact Or.inr ⟨other, member, rfl⟩
        · rw [List.map_cons, List.filter_append, filter_key_self same, filter_key_above,
            List.append_nil, split]
          · congr 1
            apply List.map_congr_left
            intro value member
            have none : (run.filter fun item => key item = value) = [] := by
              apply filter_key_below
              intro other before
              rw [same other before]
              exact beyond value member
            rw [@List.filter_append _ _ run, none]
            rfl
          · intro other member
            rcases List.mem_cons.mp member with rfl | further
            · exact next
            · exact next.trans_le (later other further)
      next equal =>
        have joined : key item = last := not_not.mp equal
        obtain ⟨keys, increasing, members, split⟩ := ih (run ++ [item]) last (by
          intro other member
          rcases List.mem_append.mp member with before | own
          · exact same other before
          · rw [List.mem_singleton.mp own, joined]) (fun other member =>
            above other (List.mem_cons_of_mem _ member)) sorted' (by simp)
        refine ⟨keys, increasing, ?_, ?_⟩
        · intro value
          rw [members, List.append_assoc]
          rfl
        · rw [split, List.append_assoc]
          rfl

/-- **Runs.** The runs of a sorted list are the elements of each of its keys in turn. -/
theorem runs_eq {items : List α}
    (sorted : items.Pairwise fun first second => key first ≤ key second) :
    ∃ keys : List β, keys.Pairwise (· < ·) ∧
      (∀ value, value ∈ keys ↔ ∃ item ∈ items, key item = value) ∧
      runs key items = keys.map fun value => items.filter fun item => key item = value := by
  cases items with
  | nil => exact ⟨[], List.Pairwise.nil, by simp, rfl⟩
  | cons item rest =>
      obtain ⟨keys, increasing, members, split⟩ := runsFrom_eq [item] (key item) rest (by simp)
        (List.pairwise_cons.mp sorted).1 (List.pairwise_cons.mp sorted).2 (by simp)
      exact ⟨key item :: keys, increasing, members, split⟩

end Runs

section Pieces

variable {pieces : List (List α)} {size : ℕ}

theorem length_flatten_uniform (uniform : ∀ piece ∈ pieces, piece.length = size) :
    pieces.flatten.length = pieces.length * size := by
  induction pieces with
  | nil => simp
  | cons piece rest ih =>
      rw [List.flatten_cons, List.length_append, uniform piece List.mem_cons_self,
        ih fun other member => uniform other (List.mem_cons_of_mem _ member), List.length_cons,
        Nat.add_mul, Nat.one_mul, Nat.add_comm]

/-- The first pieces of equal length. -/
theorem flatten_take_mul (uniform : ∀ piece ∈ pieces, piece.length = size) (count : ℕ) :
    pieces.flatten.take (count * size) = (pieces.take count).flatten := by
  induction pieces generalizing count with
  | nil => simp
  | cons piece rest ih =>
      cases count with
      | zero => simp
      | succ count =>
          have own := uniform piece List.mem_cons_self
          rw [List.flatten_cons, List.take_succ_cons, List.flatten_cons, Nat.add_mul, Nat.one_mul,
            Nat.add_comm, ← own, List.take_length_add_append, own,
            ih fun other member => uniform other (List.mem_cons_of_mem _ member)]

/-- All but the first pieces of equal length. -/
theorem flatten_drop_mul (uniform : ∀ piece ∈ pieces, piece.length = size) (count : ℕ) :
    pieces.flatten.drop (count * size) = (pieces.drop count).flatten := by
  have whole : pieces.flatten.take (count * size) ++ pieces.flatten.drop (count * size) =
      (pieces.take count).flatten ++ (pieces.drop count).flatten := by
    rw [List.take_append_drop, ← List.flatten_append, List.take_append_drop]
  rw [flatten_take_mul uniform] at whole
  exact List.append_cancel_left whole

/-- Each piece is where its index says. -/
theorem flatten_piece (uniform : ∀ piece ∈ pieces, piece.length = size) {index : ℕ}
    {piece : List α} (listed : pieces[index]? = some piece) :
    (pieces.flatten.drop (index * size)).take size = piece := by
  obtain ⟨inside, rfl⟩ := List.getElem?_eq_some_iff.mp listed
  rw [flatten_drop_mul uniform, List.drop_eq_getElem_cons inside, List.flatten_cons]
  exact List.take_left' (uniform _ (List.getElem_mem inside))

/-- An element belongs to the piece that its index says. -/
theorem mem_piece (uniform : ∀ piece ∈ pieces, piece.length = size) (positive : 0 < size)
    {index : ℕ} {item : α} (listed : pieces.flatten[index]? = some item) :
    ∃ piece, pieces[index / size]? = some piece ∧ item ∈ piece := by
  obtain ⟨below, -⟩ := List.getElem?_eq_some_iff.mp listed
  rw [length_flatten_uniform uniform] at below
  have inside : index / size < pieces.length := (Nat.div_lt_iff_lt_mul positive).mpr below
  have here := List.getElem?_eq_getElem inside
  refine ⟨_, here, ?_⟩
  rw [← flatten_piece uniform here]
  apply @List.mem_of_getElem? _ _ (index % size)
  rw [List.getElem?_take, if_pos (Nat.mod_lt _ positive), List.getElem?_drop, Nat.div_add_mod']
  exact listed

end Pieces

/-- When all of a list was processed each of its elements was. -/
theorem mapM_ok {ε γ : Type u} {process : α → Except ε γ} {items : List α} {results : List γ}
    (processed : items.mapM process = .ok results) {item : α} (member : item ∈ items) :
    ∃ result, process item = .ok result := by
  induction items generalizing results with
  | nil => cases member
  | cons first rest ih =>
      rw [List.mapM_cons] at processed
      obtain ⟨result, own, processed⟩ := exists_of_bind_ok processed
      rcases List.mem_cons.mp member with rfl | later
      · exact ⟨result, own⟩
      · obtain ⟨results, others, -⟩ := exists_of_bind_ok processed
        exact ih others later

end Ympi.Foundation
