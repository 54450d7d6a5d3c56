import Ympi.Messaging.BufferConservation
import Ympi.Messaging.CallRuns

/-! # What `YMPI_Zflush` does

When `YMPI_Zflush` returns, every request posted before it has been settled, and the
receive completions that it polled on the way have joined the pending queues of their
sources, in the order in which they were polled. The buffers in `vbuf_fetched` and those
posted are left to the other calls.
-/

namespace Ympi.Messaging

open LinkedList Foundation

variable {nprocs : ℕ}

/-- The step hands out no buffer, posts none and starts no request. -/
structure Action.Undisturbing (action : Action nprocs) : Prop where
  fetched : action.fetched = []
  unfetched : action.unfetched = []
  reposted : action.reposted = []
  handedOut : ∀ source, action.handedOut source = []
  postsTo : ∀ peer, action.postsTo peer = false

namespace Node

/-- The completions that a poll takes. -/
def polled (node : Node nprocs) : Action nprocs → List Wc
  | .poll count => node.cq.take count
  | _ => []

/-- The buffers that receive completions bring to the pending queue of `source`. -/
def bringsTo (node : Node nprocs) (source : Fin nprocs) (wcs : List Wc) : List Int :=
  (wcs.filter (node.isFrom source)).map fun wc => (wc.wrId.id : Int)

theorem bringsTo_append (node : Node nprocs) (source : Fin nprocs) (front back : List Wc) :
    node.bringsTo source (front ++ back) =
      node.bringsTo source front ++ node.bringsTo source back := by
  rw [bringsTo, List.filter_append, List.map_append]
  rfl

variable {node node' : Node nprocs} {action : Action nprocs}

/-- The source of a completion depends on the queue pairs only. -/
theorem isFrom_congr (same : node'.ctx.qps = node.ctx.qps) (source : Fin nprocs) (wc : Wc) :
    node'.isFrom source wc ↔ node.isFrom source wc := by
  rw [isFrom, isFrom, same]

theorem bringsTo_congr (same : node'.ctx.qps = node.ctx.qps) (source : Fin nprocs)
    (wcs : List Wc) : node'.bringsTo source wcs = node.bringsTo source wcs := by
  simp only [bringsTo, isFrom_congr same]

theorem queuedFor_eq (node : Node nprocs) (source : Fin nprocs) (action : Action nprocs) :
    node.queuedFor source action = node.bringsTo source action.handled := by
  cases action with
  | handle wc =>
      by_cases isFrom : node.isFrom source wc
      · simp [queuedFor, bringsTo, Action.handled, isFrom]
      · simp [queuedFor, bringsTo, Action.handled, isFrom]
  | _ => rfl

namespace Step

/-- **Polled completions.** They are handled in the order in which they were polled. -/
theorem batch_ledger (step : Step node action node') :
    node.pc.batch ++ node.polled action = action.handled ++ node'.pc.batch := by
  cases step with
  | postAccepted idle performed =>
      have atEnd := (PostCall.perform_accepted performed).2.2
      subst atEnd
      rw [idle]
      split <;> simp [polled, Action.handled]
  | postRefused idle refused performed =>
      have atEnd := (PostCall.perform_refused refused performed).2
      subst atEnd
      simp [idle, polled, Action.handled]
  | poll polling split => simp [polling, split, polled, Action.handled]
  | handle handling => simp [handling, polled, Action.handled]
  | halt fails => simp [polled, Action.handled]
  | _ => simp [polled, Action.handled, *]

/-- A process in `YMPI_Zflush` disturbs nothing. -/
theorem undisturbing (step : Step node action node') (flushing : node.Flushing)
    (busy : action.isProcess = true → ∀ ret, node.pc ≠ .idle ret) : action.Undisturbing := by
  cases step with
  | postAccepted idle | postRefused idle | zflush idle | zrecv _ idle | giveBack idle
  | store _ idle | register _ idle => exact absurd idle (busy rfl _)
  | throttleTest located | recvTest located | received located | repost located
  | repostFailed located | returned located => cases flushing.inFlush located (by simp)
  | _ => exact ⟨rfl, rfl, rfl, fun _ => rfl, fun _ => rfl⟩

end Step

/-- A receive completion that `process_wc` has handled has a source. -/
theorem Step.handled_source {wc : Wc} (step : Step node action node')
    (member : wc ∈ action.handled) (isRecv : wc.isRecv = true) :
    ∃ source, node.isFrom source wc := by
  cases step with
  | handle _ performed =>
      rw [List.mem_singleton.mp member] at isRecv ⊢
      obtain ⟨-, ⟨isSend, -⟩ | ⟨-, source, -, ranked, -⟩⟩ := Context.processWc_eq_ok performed
      · rw [isSend] at isRecv
        cases isRecv
      · exact ⟨source, isRecv, ranked⟩
  | _ => cases member

/-- What a call of `YMPI_Zflush` from `before` to `after` with the steps `labels` did; in
them it polled the completions `polled`. -/
structure Flushed (before after : Node nprocs) (labels : List (Action nprocs))
    (polled : List Wc) : Prop where
  /-- No request is outstanding, and the counters say so. -/
  settled : ∀ peer, after.outstanding peer = 0
  counters : ∀ peer, after.ctx.qpPendingSendWr peer = 0
  /-- The call has handled the completion of every request outstanding before it. -/
  handled : ∀ peer, labels.countP (Action.settles peer) = before.outstanding peer
  /-- Every receive completion that was polled has a source, and is queued for it. -/
  sources : ∀ wc ∈ polled, wc.isRecv = true → ∃ source, before.isFrom source wc
  pending : ∀ source, after.pending source = before.pending source ++ before.bringsTo source polled
  fetched : after.fetchedIds = before.fetchedIds
  /-- Posted buffers leave the SRQ by messages that arrive, and none comes in. -/
  posted : before.srq.Perm (labels.flatMap Action.consumed ++ after.srq)

/-- What holds at every point of a call of `YMPI_Zflush` that began at `start`. -/
structure Draining (start : Node nprocs) (labels : List (Action nprocs)) (node : Node nprocs)
    (seen : List Wc) : Prop where
  flushing : node.Flushing
  proper : node.Proper
  qps : node.ctx.qps = start.ctx.qps
  polled : seen = labels.flatMap Action.handled ++ node.pc.batch
  sources : ∀ wc ∈ labels.flatMap Action.handled, wc.isRecv = true →
    ∃ source, start.isFrom source wc
  pending : ∀ source, node.pending source =
    start.pending source ++ start.bringsTo source (labels.flatMap Action.handled)
  fetched : node.fetchedIds = start.fetchedIds
  posted : start.srq.Perm (labels.flatMap Action.consumed ++ node.srq)
  postsTo : ∀ peer, labels.countP (Action.postsTo peer) = 0

/-- A step of a process in `YMPI_Zflush` or of its HCA. -/
theorem Draining.step {start : Node nprocs} {labels : List (Action nprocs)} {seen : List Wc}
    (draining : Draining start labels node seen) (step : Step node action node')
    (busy : Busy node action node') :
    Draining start (labels ++ [action]) node' (seen ++ node.polled action) := by
  have quiet := step.undisturbing draining.flushing busy
  refine ⟨step.flushing draining.flushing busy, step.proper draining.proper,
    step.qps_eq.trans draining.qps, ?_, ?_, ?_, ?_, ?_, ?_⟩
  · rw [draining.polled, List.append_assoc, step.batch_ledger, List.flatMap_append,
      List.flatMap_singleton, List.append_assoc]
  · intro wc member isRecv
    rw [List.flatMap_append, List.flatMap_singleton] at member
    rcases List.mem_append.mp member with earlier | last
    · exact draining.sources wc earlier isRecv
    · obtain ⟨source, isFrom⟩ := step.handled_source last isRecv
      exact ⟨source, (isFrom_congr draining.qps source wc).mp isFrom⟩
  · intro source
    have moved := step.pending_ledger draining.proper source
    rw [quiet.handedOut source, List.nil_append, queuedFor_eq, bringsTo_congr draining.qps,
      draining.pending source] at moved
    rw [← moved, List.flatMap_append, List.flatMap_singleton, bringsTo_append, List.append_assoc]
  · have moved := step.fetched_ledger draining.proper
    rw [quiet.fetched, quiet.unfetched, List.append_nil, List.nil_append] at moved
    exact moved.symm.trans draining.fetched
  · have moved := step.srq_ledger
    rw [quiet.reposted, List.append_nil] at moved
    rw [List.flatMap_append, List.flatMap_singleton, List.append_assoc]
    exact draining.posted.trans (moved.append_left _)
  · intro peer
    rw [List.countP_append, draining.postsTo peer, List.countP_singleton, quiet.postsTo peer]
    rfl

/-- The recorded steps of a call of `YMPI_Zflush`. -/
abbrev flushSystem (nprocs : ℕ) : LabelledSystem (Node nprocs × List Wc) (Action nprocs) :=
  ((system nprocs).restrict Busy).recording polled

theorem execution_draining {start : Node nprocs} {labels : List (Action nprocs)}
    {source target : Node nprocs × List Wc}
    (execution : (flushSystem nprocs).Execution source labels target)
    (starts : Draining start [] source.1 source.2) :
    Draining start labels target.1 target.2 := by
  induction execution with
  | refl => exact starts
  | snoc _ step ih =>
      have draining := ih.step step.1.1 step.1.2
      rw [step.2]
      exact draining

theorem zflush_draining {before mid : Node nprocs} (proper : before.Proper)
    (call : Step before .zflush mid) : Draining before [] mid [] := by
  refine ⟨call.zflush_flushing, call.proper proper, call.qps_eq, ?_, ?_, ?_, ?_, ?_, fun _ => rfl⟩
  all_goals
    cases call with
    | zflush => simp [bringsTo]

/-- **The flush.** When a call of `YMPI_Zflush` in a reached state returns, it has handled
the completions of all requests posted before, has appended the receive completions that
it polled to the pending queues of their sources, in the order of the polls, and has
disturbed nothing else. -/
theorem zflush_flushes {history labels : List (Action nprocs)} {before mid after : Node nprocs}
    {seen : List Wc} {ret : Int} (reached : (system nprocs).Reaches history before)
    (call : Step before .zflush mid)
    (run : (flushSystem nprocs).Execution (mid, []) labels (after, seen))
    (returned : after.pc = .idle ret) : Flushed before after labels seen := by
  have draining := execution_draining run (zflush_draining (reaches_proper reached) call)
  have reached' := (reached.step call).append run.of_recording.of_restrict
  have done : after.ctx.pendingSendWr ≤ 0 := by
    cases draining.flushing with
    | inside inside =>
        rw [returned] at inside
        cases inside
    | returned _ done => exact done
  have settled := reaches_flushed reached' done
  have all : seen = labels.flatMap Action.handled := by
    have polled := draining.polled
    rw [returned, Pc.batch_idle, List.append_nil] at polled
    exact polled
  subst all
  refine ⟨settled, ?_, ?_, draining.sources, draining.pending, draining.fetched, draining.posted⟩
  · intro peer
    rw [reaches_qpPending reached' peer, settled peer]
    rfl
  · intro peer
    have earlier := reaches_outstanding reached peer
    have later := reaches_outstanding reached' peer
    have none := draining.postsTo peer
    simp only [List.countP_append, List.countP_singleton, Action.postsTo, Action.settles,
      settled peer, none] at later
    simp at later
    omega

/-- A process of three flushes one write, and polls a message of rank 2 on the way. -/
theorem zflush_flushes_write : ∃ (history labels : List (Action 3)) (before mid after : Node 3)
    (seen : List Wc), (system 3).Reaches history before ∧ before.outstanding 1 = 1 ∧
      Step before .zflush mid ∧ (flushSystem 3).Execution (mid, []) labels (after, seen) ∧
      after.pc = .idle 0 ∧ after.pending 2 = [0] ∧ Flushed before after labels seen := by
  obtain ⟨start, initial, listed, -⟩ :=
    exists_initial (QpTable.direct 3 (by decide)) (fun _ => 0) []
  obtain ⟨node, run, started, qps, -⟩ := startup initial
  have paired (peer : Fin 3) : node.ctx.qps.qpList peer = some peer.val := by
    rw [qps, listed]
    rfl
  have present : node.ctx.qps.qpList 1 ≠ none := by
    rw [paired]
    exact Option.some_ne_none _
  -- The write is posted, the message arrives, and the write takes effect and completes.
  let wr (id : ℕ) : RecvWr := node.ctx.recvRequest id
  let others : List RecvWr := (List.range' 1 255).map wr
  let message : Wc := recvWc (wr 0) 2 []
  let posted : Node 3 := { node with
    ctx := node.ctx.incPending 1
    sendQueue := Function.update node.sendQueue 1
      (node.sendQueue 1 ++ [emptyPosted node.ctx 1]) }
  have post : Step node (.post (emptyWrite 1) .accepted []) posted := by
    apply post_below started.pc_eq present
    rw [started.qpPending_eq]
    decide
  have stock : posted.srq = wr 0 :: others := by
    change node.srq = _
    rw [started.srq_eq, List.range_eq_range', prepostDepth, List.map_map]
    rfl
  let arrived : Node 3 := { posted with srq := others, cq := posted.cq ++ [message] }
  have arrives : Step posted (.arrive 2 (wr 0) []) arrived := arrive_step stock (paired 2)
  have queue : arrived.sendQueue 1 = [emptyPosted node.ctx 1] := by
    simp only [arrived, posted, Function.update_self, started.sendQueue_eq, List.nil_append]
  have launched := arrived.launch_step queue rfl
  have completed := arrived.complete_step (emptyPosted node.ctx 1) [] rfl (paired 1)
  let before : Node 3 := { arrived with
    sendQueue := Function.update arrived.sendQueue 1 []
    cq := arrived.cq ++ [⟨⟨.write, 1⟩, .success, 0, 1⟩] }
  have reached : (system 3).Reaches _ before := ⟨start, initial,
    run.append (.cons post (.cons arrives (.cons launched (.single completed))))⟩
  have one : before.outstanding 1 = 1 := by
    rw [← Int.natCast_inj, ← reaches_qpPending reached 1]
    have counted := node.ctx.incPending_self 1
    rw [started.qpPending_eq] at counted
    exact counted
  -- The flush takes the message first.
  let waiting : Node 3 := { before with pc := .head .flush }
  have call : Step before .zflush waiting := Step.zflush started.pc_eq
  have completions : waiting.cq = message :: [⟨⟨.write, 1⟩, .success, 0, 1⟩] := by
    change node.cq ++ _ ++ _ = _
    rw [started.cq_eq]
    rfl
  have waits : 0 < waiting.ctx.pendingSendWr := by
    change 0 < node.ctx.pendingSendWr + 1
    rw [started.total_eq]
    decide
  obtain ⟨pending, stored, performed⟩ := @Context.processWc_recv _ waiting.ctx message 2 rfl rfl
    (waiting.ctx.qps.rank_eq 2 2 (paired 2)) (by
      change (node.pending 2).length < _
      rw [started.pending_eq]
      decide)
  let polling : Node 3 := { waiting with pc := .polling .flush }
  let handling : Node 3 := { waiting with
    pc := .handling .flush [message]
    cq := [⟨⟨.write, 1⟩, .success, 0, 1⟩] }
  let taken : Node 3 := { handling with
    ctx := waiting.ctx.queued message 2 pending
    pc := .head .flush }
  have tested : Step waiting (.test .flush) polling := .flushTest rfl waits
  have polled' : Step polling (.poll 1) handling :=
    @Step.poll _ polling .flush [message] _ rfl completions (show 1 ≤ pollBatch by decide)
  have handled : Step handling (.handle message) taken :=
    @Step.handle _ handling .flush message [] _ rfl performed
  -- It takes the completion of the write next, and returns.
  have flushed := @flush_run _ taken (node.ctx.queued message 2 pending) 1 _ rfl rfl
    started.total_eq rfl rfl (by decide)
  have whole : ((system 3).restrict InCall).Execution waiting _ _ :=
    .cons ⟨tested, by simp [waiting], rfl⟩ (.cons ⟨polled', by simp [polling], rfl⟩
      (.cons ⟨handled, by simp [handling], rfl⟩ flushed))
  have busy := @LabelledSystem.Execution.restrict_mono _ _ _ _ Busy _ _ _ whole
    fun _ _ _ inCall _ => inCall.1
  obtain ⟨seen, recorded⟩ := @LabelledSystem.Execution.recorded _ _ _ _ polled _ _ _ busy []
  refine ⟨_, _, before, waiting, _, seen, reached, one, call, recorded, rfl, ?_,
    zflush_flushes reached call recorded rfl⟩
  change ((waiting.ctx.queued message 2 pending).rxWin.pendingRecvQueue 2).contents = _
  rw [Context.queued_pending_self, stored]
  change node.pending 2 ++ _ = _
  rw [started.pending_eq]
  rfl

end Node

end Ympi.Messaging
