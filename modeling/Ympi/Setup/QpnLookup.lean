import Ympi.Messaging.Context
import Ympi.Setup.QueuePairs

/-! # The lookup of queue pair numbers

The loop that creates the queue pairs enters each peer into the table `qp_rank` under the
number of its queue pair, and asserts that the slot is free. The loop stops at the assertion
exactly when two numbers share a slot, and a table that it completes leads from each number
back to the peer.
-/

namespace Ympi.Setup

open Foundation Messaging

variable {nprocs : ℕ}

namespace Process

/-- The verbs layer refuses a queue pair for the peer. -/
def Refuses (process : Process nprocs) (peer : Fin nprocs) : Prop :=
  process.lists peer = true ∧ process.qpNum peer = none

/-- The loop creates a queue pair for the peer with a number that has this slot of the table,
if it comes to the peer. -/
def Takes (process : Process nprocs) (peer : Fin nprocs) (slot : ℕ) : Prop :=
  process.lists peer = true ∧
    ∃ number, process.qpNum peer = some number ∧ number.toNat % qpnHashSize = slot

/-- The queue pair for the peer has this number, and no creation before it fails. -/
def Creates (process : Process nprocs) (peer : Fin nprocs) (number : UInt32) : Prop :=
  process.lists peer = true ∧ process.qpNum peer = some number ∧
    ∀ earlier < peer, ¬ process.Refuses earlier

/-- Two queue pairs that are created have numbers congruent modulo the size of the table. -/
def Collides (process : Process nprocs) : Prop :=
  ∃ peer other number number', peer ≠ other ∧ process.Creates peer number ∧
    process.Creates other number' ∧ number.toNat % qpnHashSize = number'.toNat % qpnHashSize

/-- The table after the peers `visited`: a slot is empty when none of them takes it, and holds
the peer that takes it otherwise. -/
structure Filled (process : Process nprocs) (visited : List (Fin nprocs)) (qpRank : ℕ → Int) :
    Prop where
  empty : ∀ slot, (∀ peer ∈ visited, ¬ process.Takes peer slot) → qpRank slot = -1
  taken : ∀ peer ∈ visited, ∀ slot, process.Takes peer slot → qpRank slot = (peer.val : Int)

variable {process : Process nprocs} {visited rest : List (Fin nprocs)} {peer : Fin nprocs}
  {qpRank after : ℕ → Int} {qpList table : Fin nprocs → Option QueuePair} {old new : Option QueuePair}

theorem Takes.slot_eq {slot slot' : ℕ} (takes : process.Takes peer slot)
    (takes' : process.Takes peer slot') : slot = slot' := by
  obtain ⟨-, number, assigned, rfl⟩ := takes
  obtain ⟨-, number', assigned', rfl⟩ := takes'
  rw [Option.some.inj (assigned.symm.trans assigned')]

namespace Filled

theorem nil : process.Filled [] fun _ => -1 where
  empty _ _ := rfl
  taken _ member := absurd member List.not_mem_nil

/-- A slot is free exactly when no peer visited so far takes it. -/
theorem free_iff (filled : process.Filled visited qpRank) (slot : ℕ) :
    qpRank slot = -1 ↔ ∀ peer ∈ visited, ¬ process.Takes peer slot := by
  refine ⟨fun free peer member takes => ?_, filled.empty slot⟩
  have stored := filled.taken peer member slot takes
  omega

/-- A peer that takes no slot leaves the table as it is. -/
theorem skip (filled : process.Filled visited qpRank) (nothing : ∀ slot, ¬ process.Takes peer slot) :
    process.Filled (visited ++ [peer]) qpRank where
  empty slot free := filled.empty slot fun other member =>
    free other (List.mem_append_left _ member)
  taken other member slot takes := by
    rcases List.mem_append.mp member with member | member
    · exact filled.taken other member slot takes
    · rw [List.mem_singleton.mp member] at takes
      exact absurd takes (nothing slot)

/-- A peer is entered in a free slot. -/
theorem enter {slot : ℕ} (filled : process.Filled visited qpRank)
    (takes : process.Takes peer slot) (free : qpRank slot = -1) :
    process.Filled (visited ++ [peer]) (Function.update qpRank slot (peer.val : Int)) where
  empty other none := by
    have apart : other ≠ slot := by
      rintro rfl
      exact none peer (List.mem_append_right _ (List.mem_singleton_self peer)) takes
    rw [Function.update_of_ne apart]
    exact filled.empty other fun before member => none before (List.mem_append_left _ member)
  taken other member target takes' := by
    rcases List.mem_append.mp member with member | member
    · have apart : target ≠ slot := by
        rintro rfl
        exact (filled.free_iff target).mp free other member takes'
      rw [Function.update_of_ne apart]
      exact filled.taken other member target takes'
    · rw [List.mem_singleton.mp member] at takes' ⊢
      rw [takes'.slot_eq takes, Function.update_self]

end Filled

/-- A turn of the loop: the creation fails, the assertion finds the slot taken, or the table
is filled for one more peer. -/
theorem createQp_cases (filled : process.Filled visited qpRank) (peer : Fin nprocs)
    (old : Option QueuePair) :
    (process.Refuses peer ∧ process.createQp peer qpRank old = .error (.returns (-1))) ∨
      (¬ process.Refuses peer ∧
        (∃ slot, process.Takes peer slot ∧ ∃ other ∈ visited, process.Takes other slot) ∧
        process.createQp peer qpRank old = .error .assertion) ∨
      ¬ process.Refuses peer ∧
        (∀ slot, process.Takes peer slot → ∀ other ∈ visited, ¬ process.Takes other slot) ∧
        ∃ after new, process.createQp peer qpRank old = .ok (after, new) ∧
          process.Filled (visited ++ [peer]) after := by
  cases listed : process.lists peer with
  | false =>
      have nothing : ∀ slot, ¬ process.Takes peer slot := fun slot takes =>
        Bool.false_ne_true (listed.symm.trans takes.1)
      refine Or.inr (Or.inr ⟨fun refuses => Bool.false_ne_true (listed.symm.trans refuses.1),
        fun slot takes => absurd takes (nothing slot), qpRank, none, ?_, filled.skip nothing⟩)
      simp only [createQp, listed, Bool.false_eq_true, if_false]
  | true =>
      cases assigned : process.qpNum peer with
      | none =>
          refine Or.inl ⟨⟨listed, assigned⟩, ?_⟩
          simp only [createQp, listed, assigned, if_true]
      | some number =>
          have accepts : ¬ process.Refuses peer := fun refuses =>
            Option.some_ne_none number (assigned.symm.trans refuses.2)
          have takes : process.Takes peer (number.toNat % qpnHashSize) :=
            ⟨listed, number, assigned, rfl⟩
          by_cases free : qpRank (number.toNat % qpnHashSize) = -1
          · refine Or.inr (Or.inr ⟨accepts, fun slot takes' => ?_, _,
              some (QueuePair.create number), ?_, filled.enter takes free⟩)
            · rw [takes'.slot_eq takes]
              exact (filled.free_iff _).mp free
            · simp only [createQp, listed, assigned, free, if_true]
          · refine Or.inr (Or.inl ⟨accepts, ⟨_, takes, ?_⟩, ?_⟩)
            · by_contra absent
              exact free ((filled.free_iff _).mpr fun other member takes' =>
                absent ⟨other, member, takes'⟩)
            · simp only [createQp, listed, assigned, free, if_true, if_false]

/-- A loop that completes fills the table for all its peers. -/
theorem forEach_filled (done : forEach process.createQp rest qpRank table = .ok (after, qpList))
    (filled : process.Filled visited qpRank) : process.Filled (visited ++ rest) after := by
  induction rest generalizing visited qpRank table with
  | nil =>
      cases done
      rwa [List.append_nil]
  | cons peer rest ih =>
      rw [forEach] at done
      rcases createQp_cases filled peer (table peer) with
        ⟨-, turn⟩ | ⟨-, -, turn⟩ | ⟨-, -, next, new, turn, filled'⟩
      · rw [turn] at done
        cases done
      · rw [turn] at done
        cases done
      · rw [turn] at done
        rw [← List.singleton_append, ← List.append_assoc]
        exact ih done filled'

/-- The loop stops at the assertion when it comes to a peer whose slot is taken. -/
theorem forEach_assertion_iff (filled : process.Filled visited qpRank) :
    forEach process.createQp rest qpRank table = .error .assertion ↔
      ∃ before peer later, rest = before ++ peer :: later ∧
        (∀ earlier ∈ before, ¬ process.Refuses earlier) ∧ ¬ process.Refuses peer ∧
        ∃ slot, process.Takes peer slot ∧ ∃ other ∈ visited ++ before, process.Takes other slot := by
  induction rest generalizing visited qpRank table with
  | nil =>
      refine ⟨fun stopped => ?_, ?_⟩
      · cases stopped
      · rintro ⟨before, peer, later, split, -⟩
        simp at split
  | cons peer rest ih =>
      rw [forEach]
      rcases createQp_cases filled peer (table peer) with
        ⟨refuses, turn⟩ | ⟨accepts, shared, turn⟩ | ⟨accepts, alone, next, new, turn, filled'⟩
      · rw [turn]
        refine ⟨fun stopped => ?_, ?_⟩
        · cases stopped
        · rintro ⟨before, other, later, split, none, accepts, -⟩
          cases before with
          | nil =>
              cases split
              exact absurd refuses accepts
          | cons first before =>
              cases split
              exact absurd refuses (none _ List.mem_cons_self)
      · rw [turn]
        refine ⟨fun _ => ⟨[], peer, rest, rfl, ?_, accepts, ?_⟩, fun _ => rfl⟩
        · exact fun earlier member => absurd member List.not_mem_nil
        · rwa [List.append_nil]
      · rw [turn]
        refine (ih filled').trans ⟨?_, ?_⟩
        · rintro ⟨before, other, later, rfl, none, accepts', slot, takes, found⟩
          refine ⟨peer :: before, other, later, rfl, ?_, accepts', slot, takes, ?_⟩
          · exact List.forall_mem_cons.mpr ⟨accepts, none⟩
          · rwa [List.append_assoc, List.singleton_append] at found
        · rintro ⟨before, other, later, split, none, accepts', slot, takes, found⟩
          cases before with
          | nil =>
              cases split
              rw [List.append_nil] at found
              obtain ⟨earlier, member, takes'⟩ := found
              exact absurd takes' (alone slot takes earlier member)
          | cons first before =>
              cases split
              refine ⟨before, other, later, rfl, fun earlier member =>
                none earlier (List.mem_cons_of_mem _ member), accepts', slot, takes, ?_⟩
              rwa [List.append_assoc, List.singleton_append]

/-- In the list of all peers, those before a peer are the smaller ones. -/
theorem mem_before_iff {before later : List (Fin nprocs)}
    (split : List.finRange nprocs = before ++ peer :: later) (other : Fin nprocs) :
    other ∈ before ↔ other < peer := by
  have sorted := List.pairwise_lt_finRange nprocs
  rw [split] at sorted
  obtain ⟨-, tail, apart⟩ := List.pairwise_append.mp sorted
  refine ⟨fun member => apart other member peer List.mem_cons_self, fun less => ?_⟩
  have member := List.mem_finRange other
  rw [split] at member
  rcases List.mem_append.mp member with member | member
  · exact member
  · rcases List.mem_cons.mp member with rfl | member
    · exact absurd less (lt_irrefl _)
    · exact absurd less (List.rel_of_pairwise_cons tail member).asymm

/-- The assertion of the loop stops it exactly when two queue pairs share a slot. -/
theorem createQps_assertion_iff : process.createQps = .error .assertion ↔ process.Collides := by
  rw [createQps, forEach_assertion_iff Filled.nil]
  refine ⟨?_, ?_⟩
  · rintro ⟨before, peer, later, split, none, -, slot, takes, other, member, takes'⟩
    rw [List.nil_append] at member
    obtain ⟨listed, number, assigned, rfl⟩ := takes
    obtain ⟨listed', number', assigned', same⟩ := takes'
    have less := (mem_before_iff split other).mp member
    refine ⟨peer, other, number, number', less.ne', ⟨listed, assigned, ?_⟩,
      ⟨listed', assigned', ?_⟩, same.symm⟩
    · exact fun earlier below => none earlier ((mem_before_iff split earlier).mpr below)
    · exact fun earlier below => none earlier ((mem_before_iff split earlier).mpr (below.trans less))
  · -- The loop meets the larger of the two peers second.
    have stops : ∀ (first second : Fin nprocs) (number number' : UInt32), first < second →
        process.Creates first number → process.Creates second number' →
        number.toNat % qpnHashSize = number'.toNat % qpnHashSize →
        ∃ before peer later, List.finRange nprocs = before ++ peer :: later ∧
          (∀ earlier ∈ before, ¬ process.Refuses earlier) ∧ ¬ process.Refuses peer ∧
          ∃ slot, process.Takes peer slot ∧ ∃ other ∈ [] ++ before, process.Takes other slot := by
      rintro first second number number' less ⟨listed, assigned, -⟩ ⟨listed', assigned', none⟩ same
      obtain ⟨before, later, split⟩ := List.append_of_mem (List.mem_finRange second)
      refine ⟨before, second, later, split, fun earlier member =>
        none earlier ((mem_before_iff split earlier).mp member), fun refuses =>
        Option.some_ne_none _ (assigned'.symm.trans refuses.2), _, ⟨listed', number', assigned', rfl⟩,
        first, (mem_before_iff split first).mpr less, listed, number, assigned, same⟩
    rintro ⟨peer, other, number, number', apart, creates, creates', same⟩
    rcases lt_or_gt_of_ne apart with less | less
    · exact stops peer other number number' less creates creates' same
    · exact stops other peer number' number less creates' creates same.symm

/-- The queue pairs of a completed loop have the numbers that the verbs layer gave them. -/
theorem createQps_number (done : process.createQps = .ok (qpRank, qpList)) {qp : QueuePair}
    (held : qpList peer = some qp) :
    process.lists peer = true ∧ process.qpNum peer = some qp.qpNum := by
  obtain ⟨_, _, creates⟩ := (forEach_ok done (List.nodup_finRange _)).1 peer
    (List.mem_finRange peer)
  rcases createQp_ok creates with ⟨-, none⟩ | ⟨listed, number, assigned, new⟩
  · exact absurd (held.symm.trans none) (Option.some_ne_none qp)
  · cases Option.some.inj (held.symm.trans new)
    exact ⟨listed, assigned⟩

/-- The table of a completed loop leads from the number of a queue pair to its peer. -/
theorem createQps_lookup (done : process.createQps = .ok (qpRank, qpList)) {qp : QueuePair}
    (held : qpList peer = some qp) :
    qpnRank .x86_64 qpRank qp.qpNum.toNat = .ok (peer.val : Int) := by
  obtain ⟨listed, assigned⟩ := createQps_number done held
  have filled := forEach_filled done Filled.nil
  have stored := filled.taken peer (List.mem_finRange peer) _ ⟨listed, qp.qpNum, assigned, rfl⟩
  simp only [qpnRank, stored]
  exact if_pos (Int.natCast_nonneg _)

/-- The number of a queue pair does not change when it is passed as an `int`. -/
theorem createQps_toInt (done : process.createQps = .ok (qpRank, qpList)) {qp : QueuePair}
    (held : qpList peer = some qp) : qp.qpNum.toInt32.toInt = (qp.qpNum.toNat : Int) := by
  have small := process.qpNum_lt peer _ (createQps_number done held).2
  refine BitVec.toInt_eq_toNat_of_lt ?_
  change 2 * qp.qpNum.toNat < 2 ^ 32
  omega

/-- **Looking up queue pair numbers.** The assertion of the creation loop fails exactly when two
of the queue pairs created have numbers congruent modulo the size of the table. When the loop
completes, `YMPID_Qpn_rank` returns the peer of every queue pair. -/
theorem qpn_lookup_inverts (process : Process nprocs) :
    (process.createQps = .error .assertion ↔ process.Collides) ∧
      ∀ qpRank qpList, process.createQps = .ok (qpRank, qpList) →
        ∀ peer qp, qpList peer = some qp →
          qp.qpNum.toInt32.toInt = (qp.qpNum.toNat : Int) ∧
            qpnRank .x86_64 qpRank qp.qpNum.toNat = .ok (peer.val : Int) := by
  refine ⟨createQps_assertion_iff, ?_⟩
  intro qpRank qpList done peer qp held
  exact ⟨createQps_toInt done held, createQps_lookup done held⟩

/-- A process of two that gets these numbers for its queue pairs. -/
def ofNumbers (own peer : UInt32) (small : own.toNat < 2 ^ 24 ∧ peer.toNat < 2 ^ 24) : Process 2 where
  targetRankList := none
  opened := true
  qpNum rank := if rank.val = 0 then some own else some peer
  toInit _ := true
  receivesPosted := true
  lid := 0
  lrand48 _ := 0
  toRtr _ := true
  toRts _ := true
  qpNum_lt rank number assigned := by
    split at assigned
    · cases assigned
      exact small.1
    · cases assigned
      exact small.2

/-- The numbers 3 and 5 lead back to their peers, and 3 and 1048579 stop the loop. -/
theorem qpn_lookup_inverts_two :
    (∃ qpRank qpList, (ofNumbers 3 5 (by decide)).createQps = .ok (qpRank, qpList) ∧
      qpnRank .x86_64 qpRank 5 = .ok 1) ∧ (ofNumbers 3 1048579 (by decide)).Collides := by
  refine ⟨⟨_, _, rfl, ?_⟩, ?_⟩
  · exact ((qpn_lookup_inverts (ofNumbers 3 5 (by decide))).2 _ _ rfl 1 _ rfl).2
  · exact (qpn_lookup_inverts (ofNumbers 3 1048579 (by decide))).1.mp rfl

/-- `YMPID_Context_create` stops at an assertion exactly when it comes to the creation loop and
two numbers share a slot. -/
theorem contextCreate_assertion_iff :
    process.contextCreate = .error .assertion ↔ process.opened = true ∧ process.Collides := by
  rw [← createQps_assertion_iff, contextCreate_eq]
  cases opened : process.opened with
  | false =>
      refine ⟨fun stopped => ?_, fun both => absurd both.1 Bool.false_ne_true⟩
      cases stopped
  | true =>
      cases created : process.createQps with
      | error failure =>
          refine ⟨fun stopped => ?_, fun both => ?_⟩
          · cases stopped
            exact ⟨rfl, rfl⟩
          · cases both.2
            rfl
      | ok first =>
          refine ⟨fun stopped => ?_, fun both => by cases both.2⟩
          cases modified : forEach process.initQp (List.finRange nprocs) () first.2 with
          | error failure =>
              obtain ⟨peer, -, _, old, turn⟩ := forEach_error modified
              simp only [bind, Except.bind, if_true, modified] at stopped
              cases stopped
              cases initQp_error turn
          | ok second =>
              simp only [bind, Except.bind, if_true, modified] at stopped
              cases stopped

/-- The queue pairs of a created context with a lookup that finds the peer of each. -/
theorem contextCreate_qpTable (arch : Arch) (done : process.contextCreate = .ok (qpList, qpRank))
    (lookup : ∀ created, process.createQps = .ok (qpRank, created) → ∀ peer qp,
      created peer = some qp → qpnRank arch qpRank qp.qpNum.toNat = .ok (peer.val : Int)) :
    ∃ table : QpTable nprocs, table.arch = arch ∧ table.qpRank = qpRank ∧
      ∀ peer, table.qpList peer = (qpList peer).map fun qp => qp.qpNum.toNat := by
  obtain ⟨created, looped, modified⟩ := contextCreate_eq_ok done
  refine ⟨⟨arch, fun peer => (qpList peer).map fun qp => qp.qpNum.toNat, qpRank, ?_⟩, rfl, rfl,
    fun _ => rfl⟩
  intro peer number listed
  obtain ⟨qp, held, rfl⟩ := Option.map_eq_some_iff.mp listed
  rw [modified peer] at held
  obtain ⟨first, held', rfl⟩ := Option.map_eq_some_iff.mp held
  exact lookup created looped peer first held'

/-- The messaging layer may rely on the table of a created context. -/
theorem contextCreate_qpTable_x86 (done : process.contextCreate = .ok (qpList, qpRank)) :
    ∃ table : QpTable nprocs, table.arch = .x86_64 ∧ table.qpRank = qpRank ∧
      ∀ peer, table.qpList peer = (qpList peer).map fun qp => qp.qpNum.toNat :=
  contextCreate_qpTable .x86_64 done fun _ looped _ _ held => createQps_lookup looped held

end Process

end Ympi.Setup
