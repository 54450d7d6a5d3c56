import Ympi.Foundation.ByteStore

/-! # Copies between two stores

Blocks are put from a near store into a far one and got back, one copy after the other. A block
keeps its values until a copy reaches it, so what a block holds in the end is decided by the last
copy into it. Copies of different directions that use different blocks can be made in either order.
-/

namespace Ympi.Foundation

universe u

variable {β : Type u}

/-- Two stores that blocks are copied between. -/
@[ext]
structure Stores (β : Type u) where
  near : ℕ → β
  far : ℕ → β

/-- A block is put into the far store, or got from it. -/
inductive Copy where
  | put (near far length : ℕ)
  | get (near far length : ℕ)
  deriving DecidableEq, Repr

/-- Two ranges have no address in common. -/
def Apart (start length start' length' : ℕ) : Prop :=
  start + length ≤ start' ∨ start' + length' ≤ start

theorem Apart.symm {start length start' length' : ℕ} (apart : Apart start length start' length') :
    Apart start' length' start length :=
  Or.symm apart

namespace Copy

/-- The stores after a copy. -/
def perform (stores : Stores β) : Copy → Stores β
  | .put near far length =>
      { stores with far := writeBlock stores.far far (readBlock stores.near near length) }
  | .get near far length =>
      { stores with near := writeBlock stores.near near (readBlock stores.far far length) }

/-- The stores after copies that are made one after the other. -/
def performAll (stores : Stores β) (copies : List Copy) : Stores β :=
  copies.foldl perform stores

/-- The copy changes nothing in a range of the near store. -/
def SparesNear (start length : ℕ) : Copy → Prop
  | .put .. => True
  | .get near _ length' => Apart start length near length'

/-- The copy changes nothing in a range of the far store. -/
def SparesFar (start length : ℕ) : Copy → Prop
  | .put _ far length' => Apart start length far length'
  | .get .. => True

/-- Two copies of different directions use different ranges of both stores. -/
def Respects : Copy → Copy → Prop
  | .put near far length, .get near' far' length' =>
      Apart near length near' length' ∧ Apart far length far' length'
  | .get near far length, .put near' far' length' =>
      Apart near length near' length' ∧ Apart far length far' length'
  | _, _ => True

/-- The copy goes into the far store. -/
def isPut : Copy → Bool
  | .put .. => true
  | .get .. => false

theorem respects_of_isPut_eq {copy other : Copy} (same : copy.isPut = other.isPut) :
    copy.Respects other := by
  cases copy with
  | put =>
      cases other with
      | put => trivial
      | get => cases same
  | get =>
      cases other with
      | put => cases same
      | get => trivial

theorem Respects.symm {copy other : Copy} (respects : copy.Respects other) :
    other.Respects copy := by
  cases copy with
  | put =>
      cases other with
      | put => trivial
      | get => exact ⟨respects.1.symm, respects.2.symm⟩
  | get =>
      cases other with
      | put => exact ⟨respects.1.symm, respects.2.symm⟩
      | get => trivial

variable {stores : Stores β} {copies front back : List Copy} {start length : ℕ}

@[simp] theorem performAll_nil : performAll stores [] = stores := rfl

@[simp] theorem performAll_cons (copy : Copy) :
    performAll stores (copy :: copies) = performAll (copy.perform stores) copies := rfl

theorem performAll_append :
    performAll stores (front ++ back) = performAll (performAll stores front) back :=
  List.foldl_append

/-- A copy leaves a block of the near store alone that it spares. -/
theorem near_perform {copy : Copy} (spared : copy.SparesNear start length) :
    readBlock (copy.perform stores).near start length = readBlock stores.near start length := by
  cases copy with
  | put => rfl
  | get near far length' =>
      apply readBlock_writeBlock_apart
      rw [length_readBlock]
      exact spared

/-- A copy leaves a block of the far store alone that it spares. -/
theorem far_perform {copy : Copy} (spared : copy.SparesFar start length) :
    readBlock (copy.perform stores).far start length = readBlock stores.far start length := by
  cases copy with
  | put near far length' =>
      apply readBlock_writeBlock_apart
      rw [length_readBlock]
      exact spared
  | get => rfl

/-- A put finds what it puts after a copy that it respects. -/
theorem Respects.near {near far : ℕ} {other : Copy}
    (respects : Respects (.put near far length) other) :
    readBlock (other.perform stores).near near length = readBlock stores.near near length := by
  apply near_perform
  cases other with
  | put => trivial
  | get => exact respects.1

/-- A get finds what it gets after a copy that it respects. -/
theorem Respects.far {near far : ℕ} {other : Copy}
    (respects : Respects (.get near far length) other) :
    readBlock (other.perform stores).far far length = readBlock stores.far far length := by
  apply far_perform
  cases other with
  | put => exact respects.2
  | get => trivial

/-- A block of the near store that no copy reaches keeps its values. -/
theorem near_performAll (spared : ∀ copy ∈ copies, copy.SparesNear start length) :
    readBlock (performAll stores copies).near start length =
      readBlock stores.near start length := by
  induction copies generalizing stores with
  | nil => rfl
  | cons copy rest ih =>
      rw [performAll_cons, ih fun other member => spared other (List.mem_cons_of_mem _ member)]
      exact near_perform (spared copy List.mem_cons_self)

/-- A block of the far store that no copy reaches keeps its values. -/
theorem far_performAll (spared : ∀ copy ∈ copies, copy.SparesFar start length) :
    readBlock (performAll stores copies).far start length =
      readBlock stores.far start length := by
  induction copies generalizing stores with
  | nil => rfl
  | cons copy rest ih =>
      rw [performAll_cons, ih fun other member => spared other (List.mem_cons_of_mem _ member)]
      exact far_perform (spared copy List.mem_cons_self)

theorem put_get_comm {near far near' far' length' : ℕ}
    (respects : Respects (.put near far length) (.get near' far' length')) :
    perform (perform stores (.put near far length)) (.get near' far' length') =
      perform (perform stores (.get near' far' length')) (.put near far length) := by
  have fetched := @Respects.far _ stores _ _ _ _ respects.symm
  have gathered := @Respects.near _ stores _ _ _ _ respects
  simp only [perform] at fetched gathered ⊢
  rw [fetched, gathered]

/-- Two copies of different directions that respect each other can be made in either order. -/
theorem perform_comm {copy other : Copy} (respects : copy.Respects other)
    (different : copy.isPut ≠ other.isPut) :
    other.perform (copy.perform stores) = copy.perform (other.perform stores) := by
  cases copy with
  | put =>
      cases other with
      | put => exact absurd rfl different
      | get => exact put_get_comm respects
  | get =>
      cases other with
      | put => exact (put_get_comm respects.symm).symm
      | get => exact absurd rfl different

/-- A copy can overtake copies of the other direction that it respects. -/
theorem performAll_overtake {copy : Copy}
    (others : ∀ other ∈ front, copy.Respects other ∧ copy.isPut ≠ other.isPut) :
    performAll stores (front ++ copy :: back) = performAll (copy.perform stores) (front ++ back) := by
  induction front generalizing stores with
  | nil => rfl
  | cons other rest ih =>
      obtain ⟨respects, different⟩ := others other List.mem_cons_self
      rw [List.cons_append, performAll_cons, List.cons_append, performAll_cons,
        perform_comm respects different]
      exact ih fun last member => others last (List.mem_cons_of_mem _ member)

/-- The last copy into a block of the far store decides what it holds. -/
theorem far_put {near far : ℕ} (spared : ∀ copy ∈ back, copy.SparesFar far length) :
    readBlock (performAll stores (front ++ .put near far length :: back)).far far length =
      readBlock (performAll stores front).near near length := by
  rw [performAll_append, performAll_cons, far_performAll spared]
  have written := readBlock_writeBlock_self (performAll stores front).far far
    (readBlock (performAll stores front).near near length)
  rwa [length_readBlock] at written

/-- The last copy into a block of the near store decides what it holds. -/
theorem near_get {near far : ℕ} (spared : ∀ copy ∈ back, copy.SparesNear near length) :
    readBlock (performAll stores (front ++ .get near far length :: back)).near near length =
      readBlock (performAll stores front).far far length := by
  rw [performAll_append, performAll_cons, near_performAll spared]
  have written := readBlock_writeBlock_self (performAll stores front).near near
    (readBlock (performAll stores front).far far length)
  rwa [length_readBlock] at written

section Turns

variable {copies' copies'' : List Copy}

/-- The same copies with those of each direction in the same order. -/
def SameTurns (copies copies' : List Copy) : Prop :=
  ∀ side, copies.filter (fun copy => copy.isPut = side) =
    copies'.filter fun copy => copy.isPut = side

theorem SameTurns.trans (first : SameTurns copies copies') (second : SameTurns copies' copies'') :
    SameTurns copies copies'' :=
  fun side => (first side).trans (second side)

theorem SameTurns.append (first : SameTurns copies copies') (last : List Copy) :
    SameTurns (copies ++ last) (copies' ++ last) := by
  intro side
  rw [List.filter_append, List.filter_append, first side]

/-- Overtaking copies of the other direction changes no order within a direction. -/
theorem sameTurns_overtake {copy : Copy} (others : ∀ other ∈ front, copy.isPut ≠ other.isPut)
    (before : List Copy) :
    SameTurns (before ++ (front ++ copy :: back)) (before ++ [copy] ++ (front ++ back)) := by
  intro side
  simp only [List.filter_append, List.append_assoc, List.append_cancel_left_eq]
  by_cases own : copy.isPut = side
  · have none : front.filter (fun other => other.isPut = side) = [] := by
      rw [List.filter_eq_nil_iff]
      intro other member same
      exact others other member (own.trans (of_decide_eq_true same).symm)
    simp [none, own]
  · simp [own]

/-- Copies of one direction are in order. -/
theorem SameTurns.eq_of_side (turns : SameTurns copies copies') {side : Bool}
    (all : ∀ copy ∈ copies, copy.isPut = side) : copies = copies' := by
  have own : copies.filter (fun copy => copy.isPut = side) = copies :=
    List.filter_eq_self.mpr fun copy member => decide_eq_true (all copy member)
  have other : copies'.filter (fun copy => copy.isPut = !side) = [] := by
    rw [← turns, List.filter_eq_nil_iff]
    intro copy member same
    rw [all copy member] at same
    simp at same
  have whole : copies'.filter (fun copy => copy.isPut = side) = copies' := by
    refine List.filter_eq_self.mpr fun copy member => decide_eq_true ?_
    have apart := List.filter_eq_nil_iff.mp other copy member
    simpa using apart
  rw [← own, turns, whole]

end Turns

section Slots

variable {near far : ℕ → ℕ} {count i : ℕ}

/-- The numbers that come after `i` are others than `i`. -/
theorem range_eq_append (inside : i < count) : ∃ earlier later,
    List.range count = earlier ++ i :: later ∧ ∀ j ∈ later, j < count ∧ j ≠ i := by
  obtain ⟨earlier, later, listed⟩ := List.append_of_mem (List.mem_range.mpr inside)
  have once := List.nodup_range (n := count)
  rw [listed] at once
  refine ⟨earlier, later, listed, ?_⟩
  intro j member
  refine ⟨List.mem_range.mp (by rw [listed]; simp [member]), ?_⟩
  rintro rfl
  exact (List.nodup_cons.mp (List.nodup_append.mp once).2.1).1 member

/-- Among puts into slots that are apart each slot gets what it is put. -/
theorem far_puts (inside : i < count)
    (apart : ∀ j < count, j ≠ i → Apart (far i) length (far j) length)
    (spared : ∀ copy ∈ back, copy.SparesFar (far i) length) :
    readBlock (performAll stores
      ((List.range count).map (fun i => .put (near i) (far i) length) ++ back)).far (far i) length =
        readBlock stores.near (near i) length := by
  obtain ⟨earlier, later, listed, others⟩ := range_eq_append inside
  rw [listed, List.map_append, List.map_cons, List.append_assoc, List.cons_append, far_put,
    near_performAll]
  · intro copy member
    obtain ⟨j, -, rfl⟩ := List.mem_map.mp member
    trivial
  · intro copy member
    rcases List.mem_append.mp member with put | last
    · obtain ⟨j, listed, rfl⟩ := List.mem_map.mp put
      exact apart j (others j listed).1 (others j listed).2
    · exact spared copy last

/-- Among gets into slots that are apart each slot gets what there is for it. -/
theorem near_gets (inside : i < count)
    (apart : ∀ j < count, j ≠ i → Apart (near i) length (near j) length)
    (spared : ∀ copy ∈ back, copy.SparesNear (near i) length) :
    readBlock (performAll stores
      ((List.range count).map (fun i => .get (near i) (far i) length) ++ back)).near (near i)
        length = readBlock stores.far (far i) length := by
  obtain ⟨earlier, later, listed, others⟩ := range_eq_append inside
  rw [listed, List.map_append, List.map_cons, List.append_assoc, List.cons_append, near_get,
    far_performAll]
  · intro copy member
    obtain ⟨j, -, rfl⟩ := List.mem_map.mp member
    trivial
  · intro copy member
    rcases List.mem_append.mp member with get | last
    · obtain ⟨j, listed, rfl⟩ := List.mem_map.mp get
      exact apart j (others j listed).1 (others j listed).2
    · exact spared copy last

end Slots

end Copy

end Ympi.Foundation
