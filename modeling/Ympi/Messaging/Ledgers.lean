import Ympi.Foundation.Sums
import Ympi.Messaging.CallEffects
import Ympi.Messaging.Node

/-! # Ledgers of a node

Every queue of a node has a ledger: what it held before a step and what the step
put in is what the step took out and what it holds afterwards. One ledger for each
queue says all that a step can do to it; the invariants about where requests,
completions and buffers are follow from the ledgers by arithmetic.
-/

namespace Ympi.Messaging

open LinkedList Foundation

variable {nprocs : ℕ}

namespace Action

/-- The completion that `process_wc` handled. -/
def handled : Action nprocs → List Wc
  | .handle wc => [wc]
  | _ => []

/-- The request for `peer` that the HCA executed. -/
def launched (peer : Fin nprocs) : Action nprocs → List Posted
  | .execute target posted _ _ => if target = peer then [posted] else []
  | _ => []

/-- The request for `peer` that was completed. -/
def completed (peer : Fin nprocs) : Action nprocs → List Executed
  | .complete target executed _ => if target = peer then [executed] else []
  | _ => []

/-- The receive request posted to the SRQ. -/
def reposted : Action nprocs → List RecvWr
  | .repost wr true => [wr]
  | _ => []

/-- The receive request that a message consumed. -/
def consumed : Action nprocs → List RecvWr
  | .arrive _ wr _ => [wr]
  | _ => []

/-- The buffer that `YMPI_Zrecv` handed out for `source`. -/
def handedOut (source : Fin nprocs) : Action nprocs → List Int
  | .received target result _ => if target = source then [result.bufId] else []
  | _ => []

/-- The buffer that `YMPI_Zrecv` handed out for any source. -/
def fetched : Action nprocs → List Int
  | .received _ result _ => [result.bufId]
  | _ => []

/-- The buffer that `YMPID_Return` took from `vbuf_fetched`. -/
def unfetched : Action nprocs → List Int
  | .repost wr _ => [(wr.wrId.id : Int)]
  | _ => []

/-- The buffer that a failed `ibv_post_srq_recv` dropped. -/
def dropped : Action nprocs → List Int
  | .repost wr false => [(wr.wrId.id : Int)]
  | _ => []

end Action

namespace Node

/-- The request for `peer` that a posting call adds to its queue pair. -/
def accepted (node : Node nprocs) (peer : Fin nprocs) : Action nprocs → List Posted
  | .post call .accepted _ =>
      if call.dest = peer then [⟨call.wr node.ctx, (call.wr node.ctx).gather node.mem⟩] else []
  | _ => []

/-- The completion that the HCA adds to the completion queue. -/
def produced (node : Node nprocs) : Action nprocs → List Wc
  | .complete peer executed status =>
      (node.ctx.qps.qpList peer).toList.map fun qpNum => {
        wrId := executed.posted.wr.wrId
        status := status
        byteLen := executed.posted.data.length
        qpNum := qpNum }
  | .arrive peer wr payload =>
      (node.ctx.qps.qpList peer).toList.map fun qpNum => recvWc wr qpNum payload
  | _ => []

/-- The completion belongs to a message from `source`. -/
def isFrom (node : Node nprocs) (source : Fin nprocs) (wc : Wc) : Prop :=
  wc.isRecv = true ∧
    qpnRank node.ctx.qps.arch node.ctx.qps.qpRank wc.qpNum = .ok (source.val : Int)

instance (node : Node nprocs) (source : Fin nprocs) : DecidablePred (node.isFrom source) :=
  fun wc => by
    unfold isFrom
    cases qpnRank node.ctx.qps.arch node.ctx.qps.qpRank wc.qpNum with
    | error halt => exact isFalse fun both => nomatch both.2
    | ok rank =>
        exact decidable_of_iff (wc.isRecv = true ∧ rank = (source.val : Int))
          (and_congr_right fun _ => by rw [Except.ok.injEq])

/-- The buffer that a handled completion adds to the pending queue of `source`. -/
def queuedFor (node : Node nprocs) (source : Fin nprocs) : Action nprocs → List Int
  | .handle wc => if node.isFrom source wc then [(wc.wrId.id : Int)] else []
  | _ => []

/-- The buffers waiting for `YMPI_Zrecv(source)`. -/
abbrev pending (node : Node nprocs) (source : Fin nprocs) : List Int :=
  (node.ctx.rxWin.pendingRecvQueue source).contents

/-- The buffers handed out since they were last posted. -/
abbrev fetchedIds (node : Node nprocs) : List Int :=
  node.ctx.rxWin.vbufFetched.contents

/-- No queue of the process stores a negative number as a buffer. -/
structure Proper (node : Node nprocs) : Prop where
  pending : ∀ source, ∀ id ∈ node.pending source, 0 ≤ id
  fetched : ∀ id ∈ node.fetchedIds, 0 ≤ id

theorem Proper.minusOne_pending {node : Node nprocs} (proper : node.Proper) (source : Fin nprocs) :
    (-1 : Int) ∉ node.pending source := fun member => by
  have := proper.pending source _ member
  omega

theorem Proper.minusOne_fetched {node : Node nprocs} (proper : node.Proper) :
    (-1 : Int) ∉ node.fetchedIds := fun member => by
  have := proper.fetched _ member
  omega

namespace Step

variable {node node' : Node nprocs} {action : Action nprocs}

/-- The queue pairs of a node never change. -/
theorem qps_eq (step : Step node action node') : node'.ctx.qps = node.ctx.qps := by
  cases step with
  | postAccepted _ performed =>
      rw [(PostCall.perform_accepted performed).2.1]
      rfl
  | postRefused _ refused performed => rw [(PostCall.perform_refused refused performed).1]
  | recvTest _ performed =>
      obtain ⟨queue, rfl, -⟩ := Context.recvHead_none performed
      rfl
  | received _ performed =>
      obtain ⟨queue, fetched, -, -, rfl, -, -⟩ := Context.recvHead_some performed
      rfl
  | handle _ performed =>
      obtain ⟨-, ⟨-, peer, -, rfl⟩ | ⟨-, source, queue, -, -, rfl⟩⟩ :=
        Context.processWc_eq_ok performed
      · rfl
      · rfl
  | repost _ performed =>
      obtain ⟨bufId, queue, -, -, rfl⟩ := Context.returnHead_some performed
      rfl
  | repostFailed _ performed =>
      obtain ⟨bufId, queue, -, -, rfl⟩ := Context.returnHead_some performed
      rfl
  | returned _ performed =>
      obtain ⟨queue, rfl, -⟩ := Context.returnHead_none performed
      rfl
  | _ => rfl

/-- **Completions.** They are handled in the order in which the HCA produces them. -/
theorem unhandled_ledger (step : Step node action node') :
    node.unhandled ++ node.produced action = action.handled ++ node'.unhandled := by
  cases step with
  | postAccepted idle performed =>
      have atEnd := (PostCall.perform_accepted performed).2.2
      subst atEnd
      unfold unhandled
      rw [idle]
      split <;> simp [produced, Action.handled]
  | postRefused idle refused performed =>
      have atEnd := (PostCall.perform_refused refused performed).2
      subst atEnd
      simp [unhandled, idle, produced, Action.handled]
  | poll polling split =>
      simp [unhandled, polling, split, produced, Action.handled]
  | handle handling =>
      simp [unhandled, handling, produced, Action.handled]
  | complete status listed paired =>
      simp [unhandled, paired, produced, Action.handled]
  | arrive payload listed paired =>
      simp [unhandled, paired, produced, Action.handled]
  | halt fails => simp [unhandled, produced, Action.handled]
  | _ => simp [unhandled, produced, Action.handled, *]

/-- A completion with an error ends the process. -/
theorem handled_success {wc : Wc} (step : Step node (.handle wc) node') :
    wc.status = .success := by
  cases step with
  | handle _ performed => exact (Context.processWc_eq_ok performed).1

/-- **Posted requests.** They are executed in the order in which they were accepted. -/
theorem sendQueue_ledger (step : Step node action node') (peer : Fin nprocs) :
    node.sendQueue peer ++ node.accepted peer action =
      action.launched peer ++ node'.sendQueue peer := by
  cases step with
  | @postAccepted ret call ctx pc idle performed =>
      by_cases same : call.dest = peer
      · subst same
        simp [accepted, Action.launched]
      · simp [accepted, Action.launched, same, Function.update_of_ne (Ne.symm same)]
  | @postRefused ret call outcome ctx pc idle refused performed =>
      cases outcome with
      | accepted => exact absurd rfl refused
      | failed err => simp [accepted, Action.launched]
      | badWr => simp [accepted, Action.launched]
  | @execute target posted rest done fetched listed =>
      by_cases same : target = peer
      · subst same
        simp [accepted, Action.launched, listed]
      · simp [accepted, Action.launched, same, Function.update_of_ne (Ne.symm same)]
  | _ => simp [accepted, Action.launched]

/-- **Executed requests.** Each one is completed once. -/
theorem executed_ledger (step : Step node action node') (peer : Fin nprocs) :
    ((node.executed peer).map Executed.posted ++ action.launched peer).Perm
      ((action.completed peer ++ node'.executed peer).map Executed.posted) := by
  cases step with
  | @execute target posted rest done fetched listed =>
      by_cases same : target = peer
      · subst same
        simp [Action.launched, Action.completed]
      · simp [Action.launched, Action.completed, same, Function.update_of_ne (Ne.symm same)]
  | @complete target front back executed qpNum status listed paired signaled success =>
      by_cases same : target = peer
      · subst same
        simp [Action.launched, Action.completed, listed]
      · simp [Action.launched, Action.completed, same, Function.update_of_ne (Ne.symm same)]
  | _ => simp [Action.launched, Action.completed]

/-- **Receive requests.** A message consumes any one of those posted. -/
theorem srq_ledger (step : Step node action node') :
    (node.srq ++ action.reposted).Perm (action.consumed ++ node'.srq) := by
  cases step with
  | arrive payload listed paired =>
      simp [Action.reposted, Action.consumed, listed]
  | _ => simp [Action.reposted, Action.consumed]

/-- **Pending buffers.** `YMPI_Zrecv` hands out the buffers of a source in the order
in which their completions were handled. -/
theorem pending_ledger (step : Step node action node') (proper : node.Proper)
    (source : Fin nprocs) :
    node.pending source ++ node.queuedFor source action =
      action.handedOut source ++ node'.pending source := by
  cases step with
  | postAccepted idle performed =>
      rw [(PostCall.perform_accepted performed).2.1]
      simp [queuedFor, Action.handedOut, Context.incPending]
  | postRefused idle refused performed =>
      rw [(PostCall.perform_refused refused performed).1]
      simp [queuedFor, Action.handedOut]
  | @recvTest target ctx atHead performed =>
      have same := (Context.recvHead_empty performed (proper.minusOne_pending target)).2
      subst same
      simp [queuedFor, Action.handedOut]
  | @received target ctx result atHead performed =>
      obtain ⟨queue, fetched, stored, -, rfl, -, -⟩ := Context.recvHead_some performed
      by_cases same : target = source
      · subst same
        simp [queuedFor, Action.handedOut, Context.handedOut, pending, stored]
      · simp [queuedFor, Action.handedOut, Context.handedOut, pending, same,
          Function.update_of_ne (Ne.symm same)]
  | @handle loop wc rest ctx handling performed =>
      obtain ⟨-, ⟨isSend, peer, -, rfl⟩ | ⟨isRecv, target, queue, ranked, stored, rfl⟩⟩ :=
        Context.processWc_eq_ok performed
      · simp [queuedFor, Action.handedOut, Context.settled, isFrom, isSend]
      · by_cases same : target = source
        · subst same
          have from' : node.isFrom target wc := ⟨isRecv, ranked⟩
          simp [queuedFor, Action.handedOut, Context.queued, pending, stored, from']
        · have elsewhere : ¬ node.isFrom source wc := fun both => by
            have equal := Except.ok.inj (ranked.symm.trans both.2)
            exact same (Fin.ext (by omega))
          simp [queuedFor, Action.handedOut, Context.queued, pending, elsewhere,
            Function.update_of_ne (Ne.symm same)]
  | repost atReturn performed =>
      obtain ⟨bufId, queue, -, -, rfl⟩ := Context.returnHead_some performed
      simp [queuedFor, Action.handedOut, Context.withFetched]
  | repostFailed atReturn performed =>
      obtain ⟨bufId, queue, -, -, rfl⟩ := Context.returnHead_some performed
      simp [queuedFor, Action.handedOut, Context.withFetched]
  | returned atReturn performed =>
      have same := (Context.returnHead_empty performed proper.minusOne_fetched).2
      subst same
      simp [queuedFor, Action.handedOut]
  | _ => simp [queuedFor, Action.handedOut]

/-- **Fetched buffers.** They are posted again in the order in which they were
handed out. -/
theorem fetched_ledger (step : Step node action node') (proper : node.Proper) :
    node.fetchedIds ++ action.fetched = action.unfetched ++ node'.fetchedIds := by
  cases step with
  | postAccepted idle performed =>
      rw [(PostCall.perform_accepted performed).2.1]
      simp [Action.fetched, Action.unfetched, Context.incPending]
  | postRefused idle refused performed =>
      rw [(PostCall.perform_refused refused performed).1]
      simp [Action.fetched, Action.unfetched]
  | @recvTest target ctx atHead performed =>
      have same := (Context.recvHead_empty performed (proper.minusOne_pending target)).2
      subst same
      simp [Action.fetched, Action.unfetched]
  | @received target ctx result atHead performed =>
      obtain ⟨queue, fetched, -, stored, rfl, -, -⟩ := Context.recvHead_some performed
      simp [Action.fetched, Action.unfetched, Context.handedOut, fetchedIds, stored]
  | @handle loop wc rest ctx handling performed =>
      obtain ⟨-, ⟨-, peer, -, rfl⟩ | ⟨-, target, queue, -, -, rfl⟩⟩ :=
        Context.processWc_eq_ok performed
      · simp [Action.fetched, Action.unfetched, Context.settled]
      · simp [Action.fetched, Action.unfetched, Context.queued]
  | repost atReturn performed =>
      obtain ⟨bufId, queue, stored, rfl, rfl⟩ := Context.returnHead_some performed
      have nonneg := proper.fetched bufId (List.mem_of_mem_head? (by rw [fetchedIds, stored]; rfl))
      simp [Action.fetched, Action.unfetched, Context.withFetched, Context.recvRequest, fetchedIds,
        stored, nonneg]
  | repostFailed atReturn performed =>
      obtain ⟨bufId, queue, stored, rfl, rfl⟩ := Context.returnHead_some performed
      have nonneg := proper.fetched bufId (List.mem_of_mem_head? (by rw [fetchedIds, stored]; rfl))
      simp [Action.fetched, Action.unfetched, Context.withFetched, Context.recvRequest, fetchedIds,
        stored, nonneg]
  | returned atReturn performed =>
      have same := (Context.returnHead_empty performed proper.minusOne_fetched).2
      subst same
      simp [Action.fetched, Action.unfetched]
  | _ => simp [Action.fetched, Action.unfetched]

/-- **Counters.** An accepted post adds one to the counter of its queue pair, and a
handled completion of a request takes one off. -/
theorem qpPending_ledger (step : Step node action node') (peer : Fin nprocs) :
    node.ctx.qpPendingSendWr peer + (node.accepted peer action).length =
      action.handled.countP (Wc.isSendTo peer) + node'.ctx.qpPendingSendWr peer := by
  cases step with
  | @postAccepted ret call ctx pc idle performed =>
      rw [(PostCall.perform_accepted performed).2.1]
      by_cases same : call.dest = peer
      · subst same
        simp [accepted, Action.handled, Context.incPending]
      · simp [accepted, Action.handled, Context.incPending, same,
          Function.update_of_ne (Ne.symm same)]
  | @postRefused ret call outcome ctx pc idle refused performed =>
      rw [(PostCall.perform_refused refused performed).1]
      cases outcome with
      | accepted => exact absurd rfl refused
      | failed err => simp [accepted, Action.handled]
      | badWr => simp [accepted, Action.handled]
  | recvTest atHead performed =>
      obtain ⟨queue, rfl, -⟩ := Context.recvHead_none performed
      simp [accepted, Action.handled, Context.withPending]
  | received atHead performed =>
      obtain ⟨queue, fetched, -, -, rfl, -, -⟩ := Context.recvHead_some performed
      simp [accepted, Action.handled, Context.handedOut]
  | @handle loop wc rest ctx handling performed =>
      obtain ⟨-, ⟨isSend, target, named, rfl⟩ | ⟨isRecv, target, queue, -, -, rfl⟩⟩ :=
        Context.processWc_eq_ok performed
      · have tag : wc.wrId.tag ≠ .recv := by simpa [Wc.isRecv] using isSend
        by_cases same : target = peer
        · subst same
          simp [accepted, Action.handled, Context.settled, Wc.isSendTo, tag, named]
        · have other : ¬ wc.wrId.id = peer.val := fun equal =>
            same (Fin.ext (named.trans equal))
          simp [accepted, Action.handled, Context.settled, Wc.isSendTo, other,
            Function.update_of_ne (Ne.symm same)]
      · have tag : wc.wrId.tag = .recv := by simpa [Wc.isRecv] using isRecv
        simp [accepted, Action.handled, Context.queued, Wc.isSendTo, tag]
  | repost atReturn performed =>
      obtain ⟨bufId, queue, -, -, rfl⟩ := Context.returnHead_some performed
      simp [accepted, Action.handled, Context.withFetched]
  | repostFailed atReturn performed =>
      obtain ⟨bufId, queue, -, -, rfl⟩ := Context.returnHead_some performed
      simp [accepted, Action.handled, Context.withFetched]
  | returned atReturn performed =>
      obtain ⟨queue, rfl, -⟩ := Context.returnHead_none performed
      simp [accepted, Action.handled, Context.withFetched]
  | _ => simp [accepted, Action.handled]

/-- The counter of all requests changes as the sum of the counters does. -/
theorem pendingTotal_ledger (step : Step node action node') :
    node'.ctx.pendingSendWr + ∑ peer, node.ctx.qpPendingSendWr peer =
      node.ctx.pendingSendWr + ∑ peer, node'.ctx.qpPendingSendWr peer := by
  cases step with
  | @postAccepted ret call ctx pc idle performed =>
      rw [(PostCall.perform_accepted performed).2.1]
      have summed := sum_update_add id node.ctx.qpPendingSendWr call.dest
        (node.ctx.qpPendingSendWr call.dest + 1)
      simp only [id_eq] at summed
      simp only [Context.incPending]
      omega
  | postRefused idle refused performed => rw [(PostCall.perform_refused refused performed).1]
  | recvTest atHead performed =>
      obtain ⟨queue, rfl, -⟩ := Context.recvHead_none performed
      rfl
  | received atHead performed =>
      obtain ⟨queue, fetched, -, -, rfl, -, -⟩ := Context.recvHead_some performed
      rfl
  | @handle loop wc rest ctx handling performed =>
      obtain ⟨-, ⟨-, target, -, rfl⟩ | ⟨-, target, queue, -, -, rfl⟩⟩ :=
        Context.processWc_eq_ok performed
      · have summed := sum_update_add id node.ctx.qpPendingSendWr target
          (node.ctx.qpPendingSendWr target - 1)
        simp only [id_eq] at summed
        simp only [Context.settled]
        omega
      · rfl
  | repost atReturn performed =>
      obtain ⟨bufId, queue, -, -, rfl⟩ := Context.returnHead_some performed
      rfl
  | repostFailed atReturn performed =>
      obtain ⟨bufId, queue, -, -, rfl⟩ := Context.returnHead_some performed
      rfl
  | returned atReturn performed =>
      obtain ⟨queue, rfl, -⟩ := Context.returnHead_none performed
      rfl
  | _ => rfl

end Step

end Node

end Ympi.Messaging
