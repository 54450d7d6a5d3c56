import Ympi.Messaging.SendAccounting

/-! # The bound of the send queues

A posting call that reaches the limit of its queue pair polls until some completions
arrive. When one of them belongs to a request to the same peer, the counter is below
the limit again before the call returns. When all belong to other peers or to
received messages, the call returns with the send queue full, and the next post to
that peer goes over the limit.
-/

namespace Ympi.Messaging

open LinkedList Foundation

variable {nprocs : ℕ}

/-- The process is in the throttle loop of a call that posted to `dest`, with a
completion of a request to `dest` still to wait for or to handle; or it has ended. -/
def Pc.Throttles (dest : Fin nprocs) : Pc nprocs → Prop
  | .head (.throttle target) => target = dest
  | .polling (.throttle target) => target = dest
  | .handling (.throttle target) batch => target = dest ∧ 0 < batch.countP (Wc.isSendTo dest)
  | .halted .. => True
  | _ => False

namespace Node

/-- The throttle loop of a call that posted to `dest` ends only with a poll that brings
the completion of a request to `dest`. -/
def ThrottleServed (node : Node nprocs) (action : Action nprocs) (_ : Node nprocs) : Prop :=
  ∀ dest, node.pc = .polling (.throttle dest) →
    match action with
    | .poll count => count = 0 ∨ 0 < (node.cq.take count).countP (Wc.isSendTo dest)
    | .pollError => False
    | _ => True

/-- The counter of each queue pair is below the limit, or at it in a throttle loop. -/
def Bounded (node : Node nprocs) : Prop :=
  ∀ peer, node.ctx.qpPendingSendWr peer < maxSendWrPerQp ∨
    (node.ctx.qpPendingSendWr peer = maxSendWrPerQp ∧ node.pc.Throttles peer)

variable {node node' : Node nprocs} {action : Action nprocs}

/-- Outside the throttle loops the counters are below the limit. -/
theorem Bounded.below (bounded : node.Bounded) {peer : Fin nprocs}
    (outside : ¬ node.pc.Throttles peer) : node.ctx.qpPendingSendWr peer < maxSendWrPerQp := by
  rcases bounded peer with below | ⟨-, throttles⟩
  · exact below
  · exact absurd throttles outside

/-- A step that keeps the counters and the throttle loops keeps the bound. -/
theorem Bounded.mono (bounded : node.Bounded)
    (counters : node'.ctx.qpPendingSendWr = node.ctx.qpPendingSendWr)
    (loops : ∀ peer, node.pc.Throttles peer → node'.pc.Throttles peer) : node'.Bounded := by
  intro peer
  rw [counters]
  rcases bounded peer with below | ⟨limit, throttles⟩
  · exact Or.inl below
  · exact Or.inr ⟨limit, loops peer throttles⟩

/-- A step that keeps the counters does no harm outside the throttle loops. -/
theorem Bounded.unthrottled (bounded : node.Bounded)
    (counters : node'.ctx.qpPendingSendWr = node.ctx.qpPendingSendWr)
    (free : ∀ peer, ¬ node.pc.Throttles peer) : node'.Bounded :=
  bounded.mono counters fun peer throttles => absurd throttles (free peer)

theorem not_throttles_idle {ret : Int} (idle : node.pc = .idle ret) (peer : Fin nprocs) :
    ¬ node.pc.Throttles peer := by
  rw [idle]
  exact id

/-- A handled completion of the peer takes the counter below the limit, and before it
the loop goes on. -/
theorem bounded_handle {loop : Loop nprocs} {wc : Wc} {rest : List Wc} {ctx : Context nprocs}
    (handling : node.pc = .handling loop (wc :: rest)) (performed : node.ctx.processWc wc = .ok ctx)
    (bounded : node.Bounded) :
    ({ node with ctx := ctx, pc := .afterHandled loop rest } : Node nprocs).Bounded := by
  intro peer
  have counted := (Step.handle handling performed).qpPending_ledger peer
  simp only [accepted, List.length_nil, Action.handled, List.countP_singleton] at counted
  rcases bounded peer with below | ⟨limit, throttles⟩
  · apply Or.inl
    simp only
    split at counted <;> omega
  · rw [handling] at throttles
    cases loop with
    | throttle target =>
        obtain ⟨same, waiting⟩ := throttles
        by_cases own : wc.isSendTo peer = true
        · apply Or.inl
          rw [if_pos own] at counted
          simp only
          omega
        · refine Or.inr ⟨?_, ?_⟩
          · rw [if_neg own] at counted
            simp only
            omega
          · rw [List.countP_cons_of_neg own] at waiting
            cases rest with
            | nil => cases waiting
            | cons next others => exact ⟨same, waiting⟩
    | flush => cases throttles
    | recv source => cases throttles

/-- A poll keeps the counters, and a throttle loop that it ends is about to handle a
completion of its peer. -/
theorem bounded_poll {loop : Loop nprocs} {batch rest : List Wc} (polling : node.pc = .polling loop)
    (split : node.cq = batch ++ rest) (served : node.ThrottleServed (.poll batch.length) node')
    (bounded : node.Bounded) :
    ({ node with pc := .afterPoll loop batch, cq := rest } : Node nprocs).Bounded := by
  intro peer
  rcases bounded peer with below | ⟨limit, throttles⟩
  · exact Or.inl below
  · refine Or.inr ⟨limit, ?_⟩
    rw [polling] at throttles
    cases loop with
    | throttle target =>
        have same : target = peer := throttles
        subst same
        cases batch with
        | nil => rfl
        | cons wc others =>
            rcases served target polling with none | own
            · cases none
            · rw [split, List.take_left] at own
              exact ⟨rfl, own⟩
    | flush => cases throttles
    | recv source => cases throttles

theorem Step.bounded (step : Step node action node') (served : node.ThrottleServed action node')
    (bounded : node.Bounded) : node'.Bounded := by
  cases step with
  | @postAccepted ret call ctx pc idle performed =>
      obtain ⟨-, rfl, rfl⟩ := PostCall.perform_accepted performed
      intro peer
      have below := bounded.below (not_throttles_idle idle peer)
      by_cases same : peer = call.dest
      · subst same
        simp only [Context.incPending_self]
        split
        next limit => exact Or.inr ⟨limit, rfl⟩
        next => exact Or.inl (by omega)
      · simp only [Context.incPending_of_ne _ same]
        exact Or.inl below
  | postRefused idle refused performed =>
      obtain ⟨rfl, rfl⟩ := PostCall.perform_refused refused performed
      exact bounded.unthrottled rfl (not_throttles_idle idle)
  | poll polling split => exact bounded_poll polling split served bounded
  | @pollError loop polling =>
      refine bounded.mono rfl ?_
      intro peer throttles
      rw [polling] at throttles
      cases loop with
      | throttle target => exact (served target polling).elim
      | flush => cases throttles
      | recv source => cases throttles
  | handle handling performed => exact bounded_handle handling performed bounded
  | throttleTest atHead =>
      refine bounded.mono rfl ?_
      intro peer throttles
      rw [atHead] at throttles
      exact throttles
  | halt => exact bounded.mono rfl fun _ _ => trivial
  | zflush idle => exact bounded.unthrottled rfl (not_throttles_idle idle)
  | zrecv source idle => exact bounded.unthrottled rfl (not_throttles_idle idle)
  | giveBack idle => exact bounded.unthrottled rfl (not_throttles_idle idle)
  | flushTest atHead =>
      exact bounded.unthrottled rfl fun peer => by
        rw [atHead]
        exact id
  | flushEnd atHead =>
      exact bounded.unthrottled rfl fun peer => by
        rw [atHead]
        exact id
  | recvTest atHead performed =>
      obtain ⟨queue, rfl, -⟩ := Context.recvHead_none performed
      exact bounded.unthrottled rfl fun peer => by
        rw [atHead]
        exact id
  | received atHead performed =>
      obtain ⟨queue, fetched, -, -, rfl, -, -⟩ := Context.recvHead_some performed
      exact bounded.unthrottled rfl fun peer => by
        rw [atHead]
        exact id
  | repost atReturn performed =>
      obtain ⟨bufId, queue, -, -, rfl⟩ := Context.returnHead_some performed
      exact bounded.mono rfl fun _ => id
  | repostFailed atReturn performed =>
      obtain ⟨bufId, queue, -, -, rfl⟩ := Context.returnHead_some performed
      exact bounded.unthrottled rfl fun peer => by
        rw [atReturn]
        exact id
  | returned atReturn performed =>
      obtain ⟨queue, rfl, -⟩ := Context.returnHead_none performed
      exact bounded.unthrottled rfl fun peer => by
        rw [atReturn]
        exact id
  | store => exact bounded.mono rfl fun _ => id
  | register => exact bounded.mono rfl fun _ => id
  | execute => exact bounded.mono rfl fun _ => id
  | complete => exact bounded.mono rfl fun _ => id
  | arrive => exact bounded.mono rfl fun _ => id
  | land => exact bounded.mono rfl fun _ => id

theorem Initial.bounded (initial : node.Initial) : node.Bounded := by
  intro peer
  rw [initial.fresh.qpPending]
  exact Or.inl (by decide)

/-- Along a run whose throttle loops are served, the counters stay bounded. -/
theorem reaches_bounded {history : List (Action nprocs)}
    (reached : ((system nprocs).restrict ThrottleServed).Reaches history node) : node.Bounded := by
  apply reached.invariant fun _ => Initial.bounded
  intro before action after step
  exact step.1.bounded step.2

end Node

/-- **Send-queue bound.** In a run in which every throttle loop ends with a completion
of a request to its peer, a posting call finds room in the send queue of its queue
pair, and never more requests are outstanding than it holds. -/
theorem send_queue_bound {labels : List (Label nprocs)} {cluster : Cluster nprocs}
    (reached : ((Cluster.system nprocs).restrict fun before label after =>
      label.Satisfies Node.ThrottleServed before after).Reaches labels cluster)
    (rank : Fin nprocs) :
    (∀ call outcome data node', Node.Step (cluster rank) (.post call outcome data) node' →
      (cluster rank).ctx.qpPendingSendWr call.dest < maxSendWrPerQp) ∧
      ∀ peer, (cluster rank).outstanding peer ≤ maxSendWrPerQp := by
  have own := reaches_node_restrict (fun before action after network dest polling => by
    cases action with
    | execute => trivial
    | arrive => trivial
    | land => trivial
    | _ => cases network) reached rank
  have bounded := Node.reaches_bounded own
  refine ⟨?_, ?_⟩
  · intro call outcome data node' step
    cases step with
    | postAccepted idle => exact bounded.below (Node.not_throttles_idle idle call.dest)
    | postRefused idle => exact bounded.below (Node.not_throttles_idle idle call.dest)
  · intro peer
    have counted := Node.reaches_qpPending own.of_restrict peer
    rcases bounded peer with below | ⟨limit, -⟩ <;> omega

namespace Cluster

/-- A process that is not about to poll serves its throttle loops. -/
theorem satisfies_throttleServed {before after : Cluster nprocs} {label : Label nprocs}
    (quiet : ∀ rank count, label ≠ .act rank (.poll count) ∧ label ≠ .act rank .pollError) :
    label.Satisfies Node.ThrottleServed before after := by
  cases label with
  | act rank action =>
      intro dest polling
      cases action with
      | poll count => exact absurd rfl (quiet rank count).1
      | pollError => exact absurd rfl (quiet rank 0).2
      | _ => trivial
  | _ => trivial

/-- Rank 0 of two has filled its send queue to rank 1 and is about to poll. -/
theorem exists_throttled : ∃ labels, ∃ cluster : Cluster 2, (system 2).Reaches labels cluster ∧
    (∀ label ∈ labels, ∀ rank count,
      label ≠ .act rank (.poll count) ∧ label ≠ .act rank .pollError) ∧
    (cluster 0).pc = .head (.throttle 1) ∧
    (cluster 0).ctx.qpPendingSendWr 1 = maxSendWrPerQp ∧
    (cluster 0).ctx.qps = .direct 2 (by decide) ∧ (∀ source, (cluster 0).pending source = []) ∧
    (cluster 0).cq = [] ∧ (cluster 0).srq ≠ [] ∧
    (∃ posted rest, (cluster 0).sendQueue 1 = posted :: rest ∧ posted.wr.opcode = .rdmaWrite ∧
      posted.data = []) ∧
    (cluster 1).Started ∧ (cluster 1).ctx.qps = .direct 2 (by decide) := by
  obtain ⟨labels, start, reached, returning, started⟩ :=
    exists_started fun _ : Fin 2 => QpTable.direct 2 (by decide)
  obtain ⟨ready, tables⟩ := started 0
  have present : (start 0).ctx.qps.qpList 1 ≠ none := by
    rw [tables]
    exact Option.some_ne_none _
  obtain ⟨ctx, run, total, qps, rxWin⟩ := Node.fill_run ready.pc_eq present (ready.qpPending_eq 1)
  have filled := execution_act run (by
    intro action member
    rw [List.eq_of_mem_replicate member]
    rfl)
  refine ⟨_, _, reached.append filled, ?_, ?_⟩
  · intro label member rank count
    rcases List.mem_append.mp member with early | late
    · have returns := returning label early
      refine ⟨?_, ?_⟩ <;> rintro rfl <;> cases returns
    · obtain ⟨action, taken, rfl⟩ := List.mem_map.mp late
      rw [List.eq_of_mem_replicate taken]
      exact ⟨by simp, by simp⟩
  · rw [Function.update_self, Function.update_of_ne (by decide)]
    refine ⟨rfl, total, qps.trans tables, ?_, ready.cq_eq, ?_, ?_, started 1⟩
    · intro source
      change (ctx.rxWin.pendingRecvQueue source).contents = []
      rw [rxWin]
      exact ready.pending_eq source
    · change (start 0).srq ≠ []
      rw [ready.srq_eq]
      simp [prepostDepth]
    · refine ⟨Node.emptyPosted (start 0).ctx 1,
        List.replicate 255 (Node.emptyPosted (start 0).ctx 1), ?_, rfl, rfl⟩
      change Function.update (start 0).sendQueue 1 _ 1 = _
      rw [Function.update_self, ready.sendQueue_eq]
      rfl

/-- **The bound fails.** Rank 0 of two fills its send queue to rank 1. The message that
arrives from rank 1 meanwhile ends the throttle loop, and the next post to rank 1
finds the send queue full. -/
theorem send_queue_overrun : ∃ labels, ∃ cluster : Cluster 2, (system 2).Reaches labels cluster ∧
    ∃ call data node', Node.Step (cluster 0) (.post call .accepted data) node' ∧
      call.dest = 1 ∧ (cluster 0).ctx.qpPendingSendWr 1 = maxSendWrPerQp ∧
      node'.outstanding 1 = maxSendWrPerQp + 1 := by
  obtain ⟨labels, cluster, reached, -, atHead, full, tables, nothing, unpolled, buffers, -, ready,
    tables'⟩ := exists_throttled
  obtain ⟨wr, rest, posted⟩ := List.exists_cons_of_ne_nil buffers
  have tag := ((Node.reaches_formed (reaches_node reached 0)).srq wr (by rw [posted]; simp)).tag
  -- The message of rank 1 arrives.
  have present : (cluster 1).ctx.qps.qpList 0 ≠ none := by
    rw [tables']
    exact Option.some_ne_none _
  have paired : (cluster 0).ctx.qps.qpList 1 = some 1 := by
    rw [tables]
    rfl
  obtain ⟨sender, sent, -⟩ :=
    send_run (by decide) ready.pc_eq present (ready.sendQueue_eq 0) paired posted
  -- It ends the throttle loop of rank 0.
  let polling : Node 2 := { cluster 0 with
    pc := .polling (.throttle 1)
    srq := rest
    cq := (cluster 0).cq ++ [recvWc wr 1 []] }
  have isFrom : polling.isFrom 1 (recvWc wr 1 []) :=
    ⟨by simp [Wc.isRecv, recvWc, tag], polling.ctx.qps.rank_eq 1 1 paired⟩
  have listed : polling.cq = recvWc wr 1 [] :: [] := by
    simp [polling, unpolled]
  have room : (polling.pending 1).length < recvPerProcess := by
    change ((cluster 0).pending 1).length < recvPerProcess
    rw [nothing]
    decide
  obtain ⟨queue, -, taken⟩ := Node.take_run rfl listed (by simp [recvWc]) isFrom room
  let receiver : Node 2 := { cluster 0 with
    srq := rest
    cq := (cluster 0).cq ++ [recvWc wr 1 []] }
  have tested : Node.Step receiver (.test (.throttle 1)) polling := Node.Step.throttleTest atHead
  have run := LabelledSystem.Execution.cons tested taken
  have returned := execution_update (Function.update cluster 1 sender) 0 run (by
    intro action member
    simp only [List.mem_cons, List.not_mem_nil, or_false] at member
    rcases member with rfl | rfl | rfl <;> rfl)
  have history := (reached.append sent).append returned
  -- The next post is accepted all the same.
  let final : Node 2 := { polling with
    ctx := polling.ctx.queued (recvWc wr 1 []) 1 queue
    pc := .idle 0
    cq := [] }
  have there : Function.update (Function.update cluster 1 sender) 0 final 0 = final :=
    Function.update_self ..
  have present : final.ctx.qps.qpList 1 ≠ none := by
    rw [show final.ctx.qps.qpList 1 = some 1 from paired]
    exact Option.some_ne_none _
  obtain ⟨node', posts⟩ := Node.exists_post rfl present
  rw [← there] at posts
  have local' := reaches_node history 0
  have counted := Node.reaches_qpPending local' 1
  have more : node'.outstanding 1 = _ := posts.outstanding_post (Node.reaches_formed local')
  have still :
      (Function.update (Function.update cluster 1 sender) 0 final 0).ctx.qpPendingSendWr 1 =
        maxSendWrPerQp := by
    rw [there]
    exact full
  refine ⟨_, _, history, emptyWrite 1, [], node', posts, rfl, still, ?_⟩
  have atLimit : (Function.update (Function.update cluster 1 sender) 0 final 0).outstanding 1 =
      maxSendWrPerQp := Int.ofNat.inj (counted.symm.trans still)
  rw [more]
  exact congrArg (· + 1) atLimit

/-- The completion of one of its writes ends the throttle loop of rank 0. -/
theorem send_queue_bound_served : ∃ labels, ∃ cluster : Cluster 2,
    ((system 2).restrict fun before label after =>
      label.Satisfies Node.ThrottleServed before after).Reaches labels cluster ∧
    (∃ wc, (cluster 0).pc = .handling (.throttle 1) [wc]) ∧
    (∀ call outcome data node', Node.Step (cluster 0) (.post call outcome data) node' →
      (cluster 0).ctx.qpPendingSendWr call.dest < maxSendWrPerQp) ∧
    ∀ peer, (cluster 0).outstanding peer ≤ maxSendWrPerQp := by
  obtain ⟨labels, cluster, reached, quiet, atHead, -, tables, -, unpolled, -,
    ⟨posted, rest, listed, opcode, data⟩, -⟩ := exists_throttled
  have addressed := (Node.reaches_formed (reaches_node reached 0)).sendQueue 1 posted
    (by rw [listed]; exact List.mem_cons_self)
  have paired : (cluster 0).ctx.qps.qpList 1 = some 1 := by
    rw [tables]
    rfl
  have early : ((system 2).restrict fun before label after =>
      label.Satisfies Node.ThrottleServed before after).Reaches labels cluster := by
    obtain ⟨start, starts, run⟩ := reached
    exact ⟨start, starts, run.restrict fun label member before after =>
      satisfies_throttleServed (quiet label member)⟩
  -- The oldest write takes effect and completes.
  let wc : Wc := ⟨posted.wr.wrId, .success, 0, 1⟩
  let throttled : Node 2 := { cluster 0 with
    sendQueue := Function.update (cluster 0).sendQueue 1 rest
    cq := (cluster 0).cq ++ [wc] }
  have run := complete_run cluster 0 listed opcode data addressed.signaled paired
  rw [Function.update_eq_self] at run
  have completed := early.append (run.restrict fun label member before after =>
    satisfies_throttleServed (by
      intro rank count
      simp only [List.mem_cons, List.not_mem_nil, or_false] at member
      rcases member with rfl | rfl <;> simp))
  -- Its completion is polled.
  let polling : Node 2 := { throttled with pc := .polling (.throttle 1) }
  have tested : Node.Step throttled (.test (.throttle 1)) polling := Node.Step.throttleTest atHead
  have split : polling.cq = [wc] ++ [] := by
    simp [polling, throttled, unpolled]
  let handling : Node 2 := { polling with pc := .handling (.throttle 1) [wc], cq := [] }
  have polled : Node.Step polling (.poll 1) handling :=
    Node.Step.poll rfl split (show 1 ≤ pollBatch by decide)
  have test : Step (Function.update cluster 0 throttled) _ _ := act_update rfl tested
  have poll : Step (Function.update cluster 0 polling) _ _ := act_update rfl polled
  have served : (Label.act 0 (.poll 1) : Label 2).Satisfies Node.ThrottleServed
      (Function.update cluster 0 polling) (Function.update cluster 0 handling) := by
    rw [Label.Satisfies, Function.update_self, Function.update_self]
    intro dest atPoll
    cases atPoll
    apply Or.inr
    simp [split, wc, Wc.isSendTo, addressed.tag, addressed.id]
  have reached' := (completed.step ⟨test, satisfies_throttleServed (by simp)⟩).step ⟨poll, served⟩
  refine ⟨_, _, reached', ⟨wc, ?_⟩, send_queue_bound reached' 0⟩
  rw [Function.update_self]

end Cluster

end Ympi.Messaging
