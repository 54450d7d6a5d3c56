import Ympi.Messaging.Runs

/-! # Send accounting

The counter of a queue pair is the number of requests posted to it whose completions
have not been handled. Such a request waits in the send queue, has been executed, or
has a completion in the completion queue or in a polled batch.
-/

namespace Ympi.Messaging

open LinkedList Foundation

variable {nprocs : ℕ}

namespace Action

/-- A posting call had a request for `peer` accepted. -/
def postsTo (peer : Fin nprocs) : Action nprocs → Bool
  | .post call .accepted _ => call.dest = peer
  | _ => false

/-- `process_wc` handled the completion of a request for `peer`. -/
def settles (peer : Fin nprocs) : Action nprocs → Bool
  | .handle wc => wc.isSendTo peer
  | _ => false

theorem countP_handled (action : Action nprocs) (peer : Fin nprocs) :
    action.handled.countP (Wc.isSendTo peer) = [action].countP (settles peer) := by
  cases action <;> rfl

end Action

namespace Node

/-- The number of requests posted to `peer` whose completions have not been handled. -/
def outstanding (node : Node nprocs) (peer : Fin nprocs) : ℕ :=
  (node.sendQueue peer).length + (node.executed peer).length +
    node.unhandled.countP (Wc.isSendTo peer)

variable {node node' : Node nprocs} {action : Action nprocs}

theorem length_accepted (node : Node nprocs) (peer : Fin nprocs) (action : Action nprocs) :
    (node.accepted peer action).length = [action].countP (Action.postsTo peer) := by
  cases action with
  | post call outcome data =>
      cases outcome with
      | accepted =>
          by_cases same : call.dest = peer
          · simp [accepted, Action.postsTo, same]
          · simp [accepted, Action.postsTo, same]
      | failed err => rfl
      | badWr => rfl
  | _ => rfl

namespace Step

/-- The HCA produces a completion that names `peer` for each completed request for it. -/
theorem countP_produced (step : Step node action node') (formed : node.Formed)
    (peer : Fin nprocs) :
    (node.produced action).countP (Wc.isSendTo peer) = (action.completed peer).length := by
  cases step with
  | @complete target front back executed qpNum status listed paired =>
      have addressed := formed.executed target executed (by rw [listed]; simp)
      by_cases same : target = peer
      · subst same
        simp [produced, paired, Wc.isSendTo, addressed.tag, addressed.id, Action.completed]
      · have other : ¬ target.val = peer.val := fun equal => same (Fin.ext equal)
        simp [produced, paired, Wc.isSendTo, addressed.id, Action.completed, same, other]
  | @arrive target front back wr qpNum payload listed paired =>
      have tag := (formed.srq wr (by rw [listed]; simp)).tag
      simp [produced, paired, Wc.isSendTo, recvWc, tag, Action.completed]
  | _ => rfl

/-- An accepted post makes a request outstanding until its completion is handled. -/
theorem outstanding_ledger (step : Step node action node') (formed : node.Formed)
    (peer : Fin nprocs) :
    node.outstanding peer + (node.accepted peer action).length =
      action.handled.countP (Wc.isSendTo peer) + node'.outstanding peer := by
  have posted := congrArg List.length (step.sendQueue_ledger peer)
  have executed := (step.executed_ledger peer).length_eq
  have finished := congrArg (List.countP (Wc.isSendTo peer)) step.unhandled_ledger
  simp only [List.length_append, List.length_map, List.countP_append] at posted executed finished
  rw [step.countP_produced formed peer] at finished
  simp only [outstanding]
  omega

theorem outstanding_post {call : PostCall nprocs} {data : List UInt8}
    (step : Step node (.post call .accepted data) node') (formed : node.Formed) :
    node'.outstanding call.dest = node.outstanding call.dest + 1 := by
  have moved := step.outstanding_ledger formed call.dest
  simp [accepted, Action.handled] at moved
  exact moved.symm

/-- A posting call that returns -1 has changed nothing but the point of the process. -/
theorem post_refused {call : PostCall nprocs} {outcome : PostOutcome} {data : List UInt8}
    (step : Step node (.post call outcome data) node') (returned : node'.pc = .idle (-1)) :
    node' = { node with pc := .idle (-1) } := by
  cases step with
  | postAccepted idle performed =>
      have atEnd := (PostCall.perform_accepted performed).2.2
      rw [atEnd] at returned
      split at returned <;> cases returned
  | postRefused idle refused performed =>
      obtain ⟨rfl, rfl⟩ := PostCall.perform_refused refused performed
      rfl

end Step

theorem Initial.outstanding_eq (initial : node.Initial) (peer : Fin nprocs) :
    node.outstanding peer = 0 := by
  simp [outstanding, initial.sendQueue_eq, initial.executed_eq, initial.unhandled_eq]

variable {history : List (Action nprocs)}

/-- The counter of a queue pair counts the outstanding requests. -/
theorem reaches_qpPending (reached : (system nprocs).Reaches history node) (peer : Fin nprocs) :
    node.ctx.qpPendingSendWr peer = node.outstanding peer := by
  refine reached.induction
    (motive := fun _ node => node.ctx.qpPendingSendWr peer = node.outstanding peer) ?_ ?_
  · intro start initial
    rw [initial.fresh.qpPending, initial.outstanding_eq]
    rfl
  · intro labels before action after earlier balance step
    have counted := step.qpPending_ledger peer
    have moved := step.outstanding_ledger (reaches_formed earlier) peer
    omega

/-- The requests that were accepted have been settled or are outstanding. -/
theorem reaches_outstanding (reached : (system nprocs).Reaches history node)
    (peer : Fin nprocs) :
    history.countP (Action.postsTo peer) =
      history.countP (Action.settles peer) + node.outstanding peer := by
  refine reached.induction (motive := fun history node => history.countP (Action.postsTo peer) =
    history.countP (Action.settles peer) + node.outstanding peer) ?_ ?_
  · intro start initial
    rw [initial.outstanding_eq]
    rfl
  · intro labels before action after earlier balance step
    have moved := step.outstanding_ledger (reaches_formed earlier) peer
    rw [length_accepted, Action.countP_handled] at moved
    rw [List.countP_append, List.countP_append]
    omega

/-- The counter of all requests is the sum of the counters. -/
theorem reaches_pendingTotal (reached : (system nprocs).Reaches history node) :
    node.ctx.pendingSendWr = ∑ peer, node.ctx.qpPendingSendWr peer := by
  refine reached.induction
    (motive := fun _ node => node.ctx.pendingSendWr = ∑ peer, node.ctx.qpPendingSendWr peer) ?_ ?_
  · intro start initial
    rw [initial.fresh.total, Finset.sum_eq_zero fun peer _ => initial.fresh.qpPending peer]
  · intro labels before action after earlier same step
    have moved := step.pendingTotal_ledger
    omega

/-- The counters of a process agree with the requests in `history`, and a posting call
that returns -1 changes none of them. -/
structure SendsAccounted (history : List (Action nprocs)) (node : Node nprocs) : Prop where
  /-- The counter is the number of requests whose completions have not been handled. -/
  counter : ∀ peer, node.ctx.qpPendingSendWr peer = node.outstanding peer
  /-- These are the accepted requests but for the settled ones. -/
  accepted : ∀ peer, history.countP (Action.postsTo peer) =
    history.countP (Action.settles peer) + node.outstanding peer
  nonneg : ∀ peer, 0 ≤ node.ctx.qpPendingSendWr peer
  total : node.ctx.pendingSendWr = ∑ peer, node.ctx.qpPendingSendWr peer
  refused : ∀ call outcome data node', Step node (.post call outcome data) node' →
    node'.pc = .idle (-1) → node' = { node with pc := .idle (-1) }

/-- **Send accounting.** The counters of a process agree with the requests posted and
the completions handled, in every reached state. -/
theorem send_accounting {history : List (Action nprocs)} {node : Node nprocs}
    (reached : (system nprocs).Reaches history node) : node.SendsAccounted history where
  counter := reaches_qpPending reached
  accepted := reaches_outstanding reached
  nonneg peer := by
    rw [reaches_qpPending reached peer]
    exact Int.natCast_nonneg _
  total := reaches_pendingTotal reached
  refused call outcome data node' step returned := step.post_refused returned

/-- A process of three that has posted one write to rank 1. -/
theorem send_accounting_write : ∃ (history : List (Action 3)) (node : Node 3),
    (system 3).Reaches history node ∧ node.ctx.qpPendingSendWr 1 = 1 ∧
      node.SendsAccounted history := by
  obtain ⟨start, initial, listed, -⟩ :=
    exists_initial (QpTable.direct 3 (by decide)) (fun _ => 0) []
  obtain ⟨node, run, started, qps, -⟩ := startup initial
  have present : node.ctx.qps.qpList (emptyWrite 1 : PostCall 3).dest ≠ none := by
    rw [qps, listed]
    exact Option.some_ne_none _
  have written := Step.postAccepted started.pc_eq (PostCall.perform_ok emptyWrite_inBounds present)
  have reached : (system 3).Reaches _ _ := ⟨start, initial, run.append (.single written)⟩
  refine ⟨_, _, reached, ?_, send_accounting reached⟩
  have counted := node.ctx.incPending_self 1
  rw [started.qpPending_eq] at counted
  exact counted

end Node

end Ympi.Messaging
