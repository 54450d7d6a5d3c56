import Mathlib.Data.List.Perm.Basic
import Ympi.Messaging.Runs

/-! # The order of completions

Completions come back in an order of the adapter's choosing. `process_wc` over a list
of them leaves the counters, the lengths of the received messages and the pending
queues that the list determines up to reordering, as long as the messages of each
queue pair keep their order.
-/

namespace Ympi.Messaging

open LinkedList

variable {nprocs : ℕ}

namespace Wc

/-- `qp_id` lies outside the counters. -/
def Strays (nprocs : ℕ) (wc : Wc) : Prop :=
  wc.isRecv = false ∧ nprocs ≤ wc.wrId.id

/-- A message that came in over the queue pair `qpNum`. -/
def cameOver (qpNum : ℕ) (wc : Wc) : Bool :=
  wc.isRecv && wc.qpNum == qpNum

/-- The buffer ids of the messages. -/
def bufIds (wcs : List Wc) : List ℕ :=
  (wcs.filter isRecv).map (·.wrId.id)

theorem mem_bufIds {wcs : List Wc} {id : ℕ} :
    id ∈ bufIds wcs ↔ ∃ wc ∈ wcs, wc.isRecv = true ∧ wc.wrId.id = id := by
  simp only [bufIds, List.mem_map, List.mem_filter, and_assoc]

end Wc

/-- A message for the pending queue of `source`. -/
def QpTable.receives (qps : QpTable nprocs) (source : Fin nprocs) (wc : Wc) : Bool :=
  wc.isRecv && qps.qpList source == some wc.qpNum

/-- The messages of a peer are those of its queue pair. -/
theorem QpTable.filter_receives (qps : QpTable nprocs) (source : Fin nprocs) {first second : List Wc}
    (order : ∀ qpNum, first.filter (Wc.cameOver qpNum) = second.filter (Wc.cameOver qpNum)) :
    first.filter (qps.receives source) = second.filter (qps.receives source) := by
  cases listed : qps.qpList source with
  | none =>
      have nothing : qps.receives source = fun _ => false := by
        funext wc
        simp [QpTable.receives, listed]
      simp only [nothing, List.filter_false]
  | some qpNum =>
      have same : qps.receives source = Wc.cameOver qpNum := by
        funext wc
        simp [QpTable.receives, Wc.cameOver, listed, BEq.comm]
      rw [same, order qpNum]

/-- The part of the context that `process_wc` writes. -/
@[ext]
structure Handled (nprocs : ℕ) where
  qpPendingSendWr : Fin nprocs → Int
  pendingSendWr : Int
  bufBytes : ℕ → ℕ
  pendingRecvQueue : Fin nprocs → List Int

namespace Context

variable {ctx next after : Context nprocs} {wc : Wc} {wcs rest first second : List Wc}

/-- What completions have left in the context. -/
def handled (ctx : Context nprocs) : Handled nprocs where
  qpPendingSendWr := ctx.qpPendingSendWr
  pendingSendWr := ctx.pendingSendWr
  bufBytes := ctx.rxWin.bufBytes
  pendingRecvQueue source := (ctx.rxWin.pendingRecvQueue source).contents

/-- `process_wc` on one completion after the other. -/
def processAll (ctx : Context nprocs) : List Wc → Except Halt (Context nprocs)
  | [] => .ok ctx
  | wc :: rest => do
      let next ← ctx.processWc wc
      next.processAll rest

/-- The completions are successful, the messages came in over queue pairs of the context into
different buffers, and the pending queues have room for all of them. -/
structure Deliverable (ctx : Context nprocs) (wcs : List Wc) : Prop where
  successful : ∀ wc ∈ wcs, wc.status = .success
  held : ∀ wc ∈ wcs, wc.isRecv = true → ∃ source, ctx.qps.qpList source = some wc.qpNum
  distinct : (Wc.bufIds wcs).Nodup
  room : ∀ source, (ctx.rxWin.pendingRecvQueue source).contents.length +
    wcs.countP (ctx.qps.receives source) ≤ recvPerProcess

/-- The effect of a list of completions, said without following their order except for
the messages of one peer. -/
structure Processed (ctx : Context nprocs) (wcs : List Wc) (after : Context nprocs) : Prop where
  qps : after.qps = ctx.qps
  perPeer : ∀ peer, after.qpPendingSendWr peer =
    ctx.qpPendingSendWr peer - wcs.countP (Wc.isSendTo peer)
  total : after.pendingSendWr = ctx.pendingSendWr - wcs.countP (fun wc => !wc.isRecv)
  stored : ∀ wc ∈ wcs, wc.isRecv = true → after.rxWin.bufBytes wc.wrId.id = wc.byteLen
  kept : ∀ id, id ∉ Wc.bufIds wcs → after.rxWin.bufBytes id = ctx.rxWin.bufBytes id
  queues : ∀ source, (after.rxWin.pendingRecvQueue source).contents =
    (ctx.rxWin.pendingRecvQueue source).contents ++
      (wcs.filter (ctx.qps.receives source)).map fun wc => (wc.wrId.id : Int)

namespace Processed

theorem nil (ctx : Context nprocs) : Processed ctx [] ctx where
  qps := rfl
  perPeer _ := by simp
  total := by simp
  stored _ member := absurd member List.not_mem_nil
  kept _ _ := rfl
  queues _ := by simp

/-- A settled request. -/
theorem send {peer : Fin nprocs} (isSend : wc.isRecv = false) (named : peer.val = wc.wrId.id) :
    Processed ctx [wc] (ctx.settled peer) where
  qps := rfl
  perPeer other := by
    have tag : wc.wrId.tag ≠ .recv := by simpa [Wc.isRecv] using isSend
    by_cases same : other = peer
    · subst same
      simp [settled, Wc.isSendTo, tag, named]
    · have apart : wc.wrId.id ≠ other := fun equal => same (Fin.ext (equal.symm.trans named.symm))
      simp [settled, Wc.isSendTo, apart, Function.update_of_ne same]
  total := by simp [settled, isSend]
  stored wc' member isRecv := by
    rw [List.mem_singleton.mp member, isSend] at isRecv
    cases isRecv
  kept _ _ := rfl
  queues source := by simp [settled, QpTable.receives, isSend]

/-- A message in the queue of its source. -/
theorem recv {source : Fin nprocs} {queue : PooledQueue Int recvPerProcess}
    (isRecv : wc.isRecv = true) (held : ctx.qps.qpList source = some wc.qpNum)
    (stored : queue.contents =
      (ctx.rxWin.pendingRecvQueue source).contents ++ [(wc.wrId.id : Int)]) :
    Processed ctx [wc] (ctx.queued wc source queue) where
  qps := rfl
  perPeer peer := by
    have tag : wc.wrId.tag = .recv := by simpa [Wc.isRecv] using isRecv
    simp [queued, Wc.isSendTo, tag]
  total := by simp [queued, isRecv]
  stored wc' member _ := by
    rw [List.mem_singleton.mp member]
    simp [queued]
  kept id other := by
    have apart : id ≠ wc.wrId.id := fun same =>
      other (Wc.mem_bufIds.mpr ⟨wc, List.mem_singleton_self wc, isRecv, same.symm⟩)
    simp [queued, Function.update_of_ne apart]
  queues other := by
    by_cases same : other = source
    · subst same
      have receives : ctx.qps.receives other wc = true := by simp [QpTable.receives, isRecv, held]
      simp [queued_pending_self, stored, receives]
    · have elsewhere : ctx.qps.receives other wc = false := by
        refine Bool.eq_false_iff.mpr fun receives => same ?_
        have both : wc.isRecv = true ∧ ctx.qps.qpList other = some wc.qpNum := by
          simpa [QpTable.receives] using receives
        have equal := Except.ok.inj ((ctx.qps.rank_eq other _ both.2).symm.trans
          (ctx.qps.rank_eq source _ held))
        exact Fin.ext (by omega)
      simp [queued_pending_of_ne ctx wc queue same, elsewhere]

/-- One completion and then the others, none of which brings a message into its buffer. -/
theorem cons (head : Processed ctx [wc] next) (tail : Processed next rest after)
    (distinct : (Wc.bufIds (wc :: rest)).Nodup) : Processed ctx (wc :: rest) after where
  qps := tail.qps.trans head.qps
  perPeer peer := by
    have before := head.perPeer peer
    have later := tail.perPeer peer
    rw [← List.singleton_append, List.countP_append]
    omega
  total := by
    have before := head.total
    have later := tail.total
    rw [← List.singleton_append, List.countP_append]
    omega
  stored wc' member isRecv := by
    rcases List.mem_cons.mp member with rfl | member
    · have fresh : wc'.wrId.id ∉ Wc.bufIds rest := by
        have ids : Wc.bufIds (wc' :: rest) = wc'.wrId.id :: Wc.bufIds rest := by
          simp [Wc.bufIds, isRecv]
        rw [ids] at distinct
        exact (List.nodup_cons.mp distinct).1
      rw [tail.kept _ fresh]
      exact head.stored wc' (List.mem_singleton_self wc') isRecv
    · exact tail.stored wc' member isRecv
  kept id other := by
    have apart : ∀ wc' ∈ wc :: rest, wc'.isRecv = true → wc'.wrId.id ≠ id :=
      fun wc' member isRecv same => other (Wc.mem_bufIds.mpr ⟨wc', member, isRecv, same⟩)
    rw [tail.kept id, head.kept id]
    · rintro found
      obtain ⟨wc', member, isRecv, same⟩ := Wc.mem_bufIds.mp found
      rw [List.mem_singleton.mp member] at isRecv same
      exact apart wc List.mem_cons_self isRecv same
    · rintro found
      obtain ⟨wc', member, isRecv, same⟩ := Wc.mem_bufIds.mp found
      exact apart wc' (List.mem_cons_of_mem wc member) isRecv same
  queues source := by
    rw [tail.queues source, head.queues source, head.qps, List.append_assoc, ← List.map_append,
      ← List.filter_append, List.singleton_append]

/-- The effect fixes what is left, and a reordering that keeps the order of the messages
of each queue pair has the same effect. -/
theorem handled_eq {after' : Context nprocs} (processed : Processed ctx first after)
    (processed' : Processed ctx second after') (reordered : first.Perm second)
    (order : ∀ qpNum, first.filter (Wc.cameOver qpNum) = second.filter (Wc.cameOver qpNum)) :
    after.handled = after'.handled := by
  refine Handled.ext (funext fun peer => ?_) ?_ (funext fun id => ?_) (funext fun source => ?_)
  · simp only [handled]
    rw [processed.perPeer, processed'.perPeer, reordered.countP_eq]
  · simp only [handled]
    rw [processed.total, processed'.total, reordered.countP_eq]
  · simp only [handled]
    by_cases received : id ∈ Wc.bufIds first
    · obtain ⟨wc, member, isRecv, rfl⟩ := Wc.mem_bufIds.mp received
      rw [processed.stored wc member isRecv,
        processed'.stored wc (reordered.mem_iff.mp member) isRecv]
    · have same : (Wc.bufIds first).Perm (Wc.bufIds second) := (reordered.filter _).map _
      rw [processed.kept id received, processed'.kept id (same.mem_iff.not.mp received)]
  · simp only [handled]
    rw [processed.queues, processed'.queues, ctx.qps.filter_receives source order]

end Processed

/-- `process_wc` indexes the counters out of bounds. -/
theorem processWc_stray (successful : wc.status = .success) (strays : wc.Strays nprocs) :
    ctx.processWc wc = .error .fault := by
  have outside : ctx.decPending wc.wrId.id = .error .fault := by
    rw [decPending, index, dif_neg (by have := strays.2; omega)]
    rfl
  have tag : wc.wrId.tag ≠ .recv := by simpa [Wc.isRecv] using strays.1
  rw [processWc, if_neg (not_not_intro successful)]
  cases kind : wc.wrId.tag with
  | recv => exact absurd kind tag
  | send => exact outside
  | write => exact outside
  | read => exact outside

/-- A completion of the list is handled, or indexes the counters out of bounds. -/
theorem Deliverable.processWc (deliverable : ctx.Deliverable (wc :: rest)) :
    (wc.Strays nprocs ∧ ctx.processWc wc = .error .fault) ∨
      ¬ wc.Strays nprocs ∧ ∃ next, ctx.processWc wc = .ok next ∧ Processed ctx [wc] next := by
  have successful := deliverable.successful wc List.mem_cons_self
  cases isRecv : wc.isRecv with
  | false =>
      by_cases inside : wc.wrId.id < nprocs
      · have isSend : wc.isSendTo (⟨wc.wrId.id, inside⟩ : Fin nprocs) = true := by
          simpa [Wc.isSendTo, Wc.isRecv] using isRecv
        refine Or.inr ⟨fun strays => absurd strays.2 (by omega), _,
          processWc_send successful isSend, Processed.send isRecv rfl⟩
      · have strays : wc.Strays nprocs := ⟨isRecv, by omega⟩
        exact Or.inl ⟨strays, processWc_stray successful strays⟩
  | true =>
      obtain ⟨source, held⟩ := deliverable.held wc List.mem_cons_self isRecv
      have receives : ctx.qps.receives source wc = true := by simp [QpTable.receives, isRecv, held]
      have room := deliverable.room source
      rw [List.countP_cons_of_pos receives] at room
      obtain ⟨queue, stored, performed⟩ := processWc_recv successful isRecv
        (ctx.qps.rank_eq source _ held) (by omega)
      refine Or.inr ⟨fun strays => ?_, _, performed, Processed.recv isRecv held stored⟩
      exact Bool.false_ne_true (strays.1.symm.trans isRecv)

namespace Deliverable

theorem tail (deliverable : ctx.Deliverable (wc :: rest)) (head : Processed ctx [wc] next) :
    next.Deliverable rest where
  successful wc' member := deliverable.successful wc' (List.mem_cons_of_mem wc member)
  held wc' member isRecv := by
    rw [head.qps]
    exact deliverable.held wc' (List.mem_cons_of_mem wc member) isRecv
  distinct := by
    have sublist : (Wc.bufIds rest).Sublist (Wc.bufIds (wc :: rest)) :=
      ((List.sublist_cons_self wc rest).filter _).map _
    exact deliverable.distinct.sublist sublist
  room source := by
    have room := deliverable.room source
    rw [← List.singleton_append, List.countP_append] at room
    rw [head.qps, head.queues source, List.length_append, List.length_map,
      ← List.countP_eq_length_filter]
    omega

theorem perm (deliverable : ctx.Deliverable first) (reordered : first.Perm second) :
    ctx.Deliverable second where
  successful wc member := deliverable.successful wc (reordered.mem_iff.mpr member)
  held wc member isRecv := deliverable.held wc (reordered.mem_iff.mpr member) isRecv
  distinct := by
    have same : (Wc.bufIds first).Perm (Wc.bufIds second) := (reordered.filter _).map _
    exact same.nodup_iff.mp deliverable.distinct
  room source := by
    rw [← reordered.countP_eq]
    exact deliverable.room source

/-- The list is handled to its end, or some completion of it indexes the counters out of
bounds. -/
theorem processAll (deliverable : ctx.Deliverable wcs) :
    ((∃ wc ∈ wcs, wc.Strays nprocs) ∧ ctx.processAll wcs = .error .fault) ∨
      (∀ wc ∈ wcs, ¬ wc.Strays nprocs) ∧
        ∃ after, ctx.processAll wcs = .ok after ∧ Processed ctx wcs after := by
  induction wcs generalizing ctx with
  | nil => exact Or.inr ⟨fun wc member => absurd member List.not_mem_nil, ctx, rfl, .nil ctx⟩
  | cons wc rest ih =>
      rcases deliverable.processWc with ⟨strays, failed⟩ | ⟨straight, next, performed, head⟩
      · refine Or.inl ⟨⟨wc, List.mem_cons_self, strays⟩, ?_⟩
        rw [Context.processAll, failed]
        rfl
      · have continued : ctx.processAll (wc :: rest) = next.processAll rest := by
          rw [Context.processAll, performed]
          rfl
        rw [continued]
        rcases ih (deliverable.tail head) with
          ⟨⟨wc', member, strays⟩, failed⟩ | ⟨none, after, completed, tail⟩
        · exact Or.inl ⟨⟨wc', List.mem_cons_of_mem wc member, strays⟩, failed⟩
        · refine Or.inr ⟨List.forall_mem_cons.mpr ⟨straight, none⟩, after, completed, ?_⟩
          exact head.cons tail deliverable.distinct

end Deliverable

/-- **Completions may come back in any order across queue pairs.** Two orders of the same
successful completions that agree on the messages of each queue pair leave the same counters,
the same lengths and the same pending queues, and both lists are handled to their end unless
a request names no process. -/
theorem processAll_perm (ctx : Context nprocs) {first second : List Wc}
    (reordered : first.Perm second) (deliverable : ctx.Deliverable first)
    (order : ∀ qpNum, first.filter (Wc.cameOver qpNum) = second.filter (Wc.cameOver qpNum)) :
    (ctx.processAll first).map handled = (ctx.processAll second).map handled ∧
      ((∀ wc ∈ first, ¬ wc.Strays nprocs) → ∃ after, ctx.processAll first = .ok after) := by
  rcases deliverable.processAll with ⟨⟨wc, member, strays⟩, failed⟩ | ⟨none, after, done, processed⟩
  · rcases (deliverable.perm reordered).processAll with ⟨-, failed'⟩ | ⟨none, -⟩
    · rw [failed, failed']
      exact ⟨rfl, fun none => absurd strays (none wc member)⟩
    · exact absurd strays (none wc (reordered.mem_iff.mp member))
  · rcases (deliverable.perm reordered).processAll with
      ⟨⟨wc, member, strays⟩, -⟩ | ⟨-, after', done', processed'⟩
    · exact absurd strays (none wc (reordered.mem_iff.mpr member))
    · rw [done, done']
      refine ⟨congrArg Except.ok ?_, fun _ => ⟨after, rfl⟩⟩
      exact processed.handled_eq processed' reordered order

/-- Two messages and a write of a process of two come back in the other order. -/
theorem processAll_perm_two : ∃ (ctx : Context 2) (first second : List Wc), first ≠ second ∧
    (ctx.processAll first).map handled = (ctx.processAll second).map handled ∧
      ∃ after, ctx.processAll first = .ok after := by
  obtain ⟨ctx, created⟩ :=
    create_ok (QpTable.direct 2 (by decide)) 0 0 (fun _ _ => ⟨0, none⟩) fun _ => ⟨0, none⟩
  obtain ⟨fresh, listed⟩ := create_eq_ok created
  let message (bufId qpNum : ℕ) : Wc := ⟨⟨.recv, bufId⟩, .success, 100 + bufId, qpNum⟩
  let written : Wc := ⟨⟨.write, 1⟩, .success, 0, 1⟩
  have deliverable : ctx.Deliverable [message 0 0, message 1 1, written] := {
    successful := by decide
    held := by
      rw [listed]
      decide
    distinct := by decide
    room := fun source => by
      rw [fresh.pending source]
      exact (Nat.add_le_add_left List.countP_le_length _).trans (by decide) }
  have both := processAll_perm ctx (List.reverse_perm _).symm deliverable fun qpNum => by
    by_cases zero : qpNum = 0
    · subst zero
      decide
    · by_cases one : qpNum = 1
      · subst one
        decide
      · simp [message, written, Wc.cameOver, Wc.isRecv, Ne.symm zero, Ne.symm one]
  have straight : ∀ wc ∈ [message 0 0, message 1 1, written], ¬ wc.Strays 2 := by
    simp [message, written, Wc.Strays, Wc.isRecv]
  exact ⟨ctx, _, _, by decide, both.1, both.2 straight⟩

end Context

end Ympi.Messaging
