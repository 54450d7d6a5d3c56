import Mathlib.Algebra.BigOperators.Fin
import Ympi.Messaging.Runs

/-! # The bound of the completion queue

All queue pairs and the shared receive queue of a process complete on one completion
queue. The posting calls poll only at the limit of a single queue pair, so with
enough peers the completions outgrow the queue. They fit as long as everything that
can still complete does.
-/

namespace Ympi.Messaging

open LinkedList Foundation

variable {nprocs : ℕ}

namespace Action

/-- The number of requests that the step adds to the send queues and the SRQ. -/
def posts : Action nprocs → ℕ
  | .post _ .accepted _ => 1
  | .repost _ true => 1
  | _ => 0

/-- The number of completions that the step takes from the completion queue. -/
def polled : Action nprocs → ℕ
  | .poll count => count
  | _ => 0

end Action

namespace Node

/-- The entries of the completion queue that are taken or can be without another post:
the completions not polled, the requests not completed, and the posted buffers. -/
def exposure (node : Node nprocs) : ℕ :=
  node.cq.length + node.srq.length +
    ∑ peer, ((node.sendQueue peer).length + (node.executed peer).length)

/-- A request is posted only while its completion has an entry of the completion queue. -/
def PostsFit (node : Node nprocs) (action : Action nprocs) (_ : Node nprocs) : Prop :=
  0 < action.posts → node.exposure < cqEntries

variable {node node' : Node nprocs} {action : Action nprocs}

theorem sum_length_accepted (node : Node nprocs) (action : Action nprocs) :
    (∑ peer, (node.accepted peer action).length) + action.reposted.length = action.posts := by
  cases action with
  | post call outcome data =>
      cases outcome with
      | accepted =>
          rw [Finset.sum_eq_single call.dest]
          · simp [accepted, Action.reposted, Action.posts]
          · intro peer _ other
            simp [accepted, Ne.symm other]
          · exact fun outside => absurd (Finset.mem_univ call.dest) outside
      | failed err => simp [accepted, Action.reposted, Action.posts]
      | badWr => simp [accepted, Action.reposted, Action.posts]
  | repost wr posted => cases posted <;> simp [accepted, Action.reposted, Action.posts]
  | _ => simp [accepted, Action.reposted, Action.posts]

namespace Step

theorem length_produced (step : Step node action node') :
    (node.produced action).length =
      (∑ peer, (action.completed peer).length) + action.consumed.length := by
  cases step with
  | @complete target front back executed qpNum status listed paired =>
      rw [Finset.sum_eq_single target]
      · simp [produced, paired, Action.completed, Action.consumed]
      · intro peer _ other
        simp [Action.completed, Ne.symm other]
      · exact fun outside => absurd (Finset.mem_univ target) outside
  | arrive payload listed paired => simp [produced, paired, Action.completed, Action.consumed]
  | _ => simp [produced, Action.completed, Action.consumed]

theorem length_cq (step : Step node action node') :
    node.cq.length + (node.produced action).length = action.polled + node'.cq.length := by
  cases step with
  | poll polling split => simp [split, produced, Action.polled]
  | complete status listed paired => simp [paired, produced, Action.polled]
  | arrive payload listed paired => simp [paired, produced, Action.polled]
  | _ => simp [produced, Action.polled]

/-- Only posts add to the exposure, and only polls take from it. -/
theorem exposure_ledger (step : Step node action node') :
    node.exposure + action.posts = action.polled + node'.exposure := by
  have requests : (∑ peer, ((node.sendQueue peer).length + (node.executed peer).length)) +
      (∑ peer, (node.accepted peer action).length) =
      (∑ peer, (action.completed peer).length) +
        ∑ peer, ((node'.sendQueue peer).length + (node'.executed peer).length) := by
    rw [← Finset.sum_add_distrib, ← Finset.sum_add_distrib]
    refine Finset.sum_congr rfl fun peer _ => ?_
    have posted := congrArg List.length (step.sendQueue_ledger peer)
    have executed := (step.executed_ledger peer).length_eq
    simp only [List.length_append, List.length_map] at posted executed
    omega
  have buffers := step.srq_ledger.length_eq
  have completions := step.length_cq
  have produced := step.length_produced
  have posts := sum_length_accepted node action
  rw [List.length_append, List.length_append] at buffers
  simp only [exposure]
  omega

end Step

theorem Initial.exposure_eq (initial : node.Initial) : node.exposure = 0 := by
  simp [exposure, initial.cq_eq, initial.srq_eq, initial.sendQueue_eq, initial.executed_eq]

/-- Along a run whose posts fit, the exposure does. -/
theorem reaches_exposure_le {history : List (Action nprocs)}
    (reached : ((system nprocs).restrict PostsFit).Reaches history node) :
    node.exposure ≤ cqEntries := by
  refine reached.induction (motive := fun _ node => node.exposure ≤ cqEntries) ?_ ?_
  · intro start initial
    rw [Initial.exposure_eq initial]
    exact Nat.zero_le _
  · intro labels before action after _ bounded step
    have moved := step.1.exposure_ledger
    have fits := step.2
    unfold PostsFit at fits
    have single : action.posts ≤ 1 := by
      cases action with
      | post call outcome data => cases outcome <;> simp [Action.posts]
      | repost wr posted => cases posted <;> simp [Action.posts]
      | _ => exact Nat.zero_le _
    omega

end Node

/-- **Completion-queue bound.** In a run in which a request is posted only while the
completion queue has room for everything that can complete, it is never overrun. -/
theorem completion_queue_bound {labels : List (Label nprocs)} {cluster : Cluster nprocs}
    (reached : ((Cluster.system nprocs).restrict fun before label after =>
      label.Satisfies Node.PostsFit before after).Reaches labels cluster) (rank : Fin nprocs) :
    (cluster rank).cq.length ≤ cqEntries := by
  have own := reaches_node_restrict (fun before action after network posts => by
    cases action with
    | execute => cases posts
    | arrive => cases posts
    | land => cases posts
    | _ => cases network) reached rank
  have bounded := Node.reaches_exposure_le own
  unfold Node.exposure at bounded
  omega

/-- The step puts a completion into the completion queue. -/
def Action.completes : Action nprocs → Bool
  | .complete .. => true
  | .arrive .. => true
  | _ => false

/-- The completions of a process have been polled or are in the completion queue. -/
theorem Node.reaches_cq {history : List (Action nprocs)} {node : Node nprocs}
    (reached : (Node.system nprocs).Reaches history node) :
    history.countP Action.completes = (history.map Action.polled).sum + node.cq.length := by
  refine reached.induction (motive := fun history node => history.countP Action.completes =
    (history.map Action.polled).sum + node.cq.length) ?_ ?_
  · intro start initial
    rw [initial.cq_eq]
    rfl
  · intro labels before action after _ balance step
    have moved := step.length_cq
    have single : (before.produced action).length = if action.completes then 1 else 0 := by
      cases step with
      | complete _ _ paired | arrive _ _ paired =>
          simp [Node.produced, paired, Action.completes]
      | _ => rfl
    rw [List.countP_append, List.countP_singleton, List.map_append, List.sum_append,
      List.map_singleton, List.sum_singleton]
    omega

/-- **Few completions.** A completion queue is not overrun either, whatever is posted, as long as
there have been no more completions than it has entries. -/
theorem completion_queue_bound_of_few {labels : List (Label nprocs)} {cluster : Cluster nprocs}
    (reached : (Cluster.system nprocs).Reaches labels cluster) (rank : Fin nprocs)
    (few : (nodeHistory rank labels).countP Action.completes ≤ cqEntries) :
    (cluster rank).cq.length ≤ cqEntries := by
  have counted := Node.reaches_cq (reaches_node reached rank)
  omega

namespace Cluster

/-- The posts of a run without polls fit when there is room for everything at its end. -/
theorem fits_of_unpolled {source target : Cluster nprocs} {labels : List (Label nprocs)}
    (execution : (system nprocs).Execution source labels target)
    (unpolled : ∀ rank, ∀ action ∈ nodeHistory rank labels, action.polled = 0)
    (room : ∀ rank, (target rank).exposure ≤ cqEntries) :
    ((system nprocs).restrict fun before label after =>
      label.Satisfies Node.PostsFit before after).Execution source labels target := by
  induction execution with
  | refl => exact .refl _
  | @snoc mid target labels label earlier step ih =>
      have grows (rank : Fin nprocs) : (mid rank).exposure ≤ (target rank).exposure := by
        refine (step.execution rank).invariant
          (motive := fun node => (mid rank).exposure ≤ node.exposure) ?_ le_rfl
        intro before action member after moves holds
        have moved := moves.exposure_ledger
        have none := unpolled rank action (by
          rw [nodeHistory, List.flatMap_append, List.flatMap_singleton]
          exact List.mem_append_right _ member)
        omega
      refine .snoc (ih ?_ fun rank => (grows rank).trans (room rank)) ⟨step, ?_⟩
      · intro rank action member
        apply unpolled rank action
        rw [nodeHistory, List.flatMap_append]
        exact List.mem_append_left _ member
      · cases label with
        | act rank action =>
            intro posts
            have moved := step.own.2.exposure_ledger
            have none := unpolled rank action (by
              rw [nodeHistory, List.flatMap_append, List.flatMap_singleton]
              exact List.mem_append_right _ (by simp [Label.actionsOf]))
            have bounded := room rank
            omega
        | _ => trivial

/-- One write fewer than the throttle limit to each of some peers completes without a
poll. -/
theorem fan_run (cluster : Cluster nprocs) (source : Fin nprocs) (dests : List (Fin nprocs))
    (distinct : dests.Nodup) {node : Node nprocs} (idle : node.pc = .idle 0)
    (paired : ∀ dest ∈ dests, ∃ qpNum, node.ctx.qps.qpList dest = some qpNum)
    (empty : ∀ dest ∈ dests, node.sendQueue dest = [])
    (unused : ∀ dest ∈ dests, node.ctx.qpPendingSendWr dest = 0) :
    ∃ labels after, (system nprocs).Execution (Function.update cluster source node) labels
        (Function.update cluster source after) ∧
      after.cq.length = node.cq.length + 255 * dests.length := by
  induction dests generalizing node with
  | nil => exact ⟨[], node, .refl _, rfl⟩
  | cons dest rest ih =>
      obtain ⟨fresh, distinct⟩ := List.nodup_cons.mp distinct
      obtain ⟨qpNum, pair⟩ := paired dest List.mem_cons_self
      have room : node.ctx.qpPendingSendWr dest + (255 : ℕ) < maxSendWrPerQp := by
        rw [unused dest List.mem_cons_self]
        decide
      obtain ⟨front, ctx, cq, first, length, qps, same⟩ :=
        writes_run cluster source 255 idle pair (empty dest List.mem_cons_self) room
      obtain ⟨back, after, others, total⟩ := @ih distinct { node with ctx := ctx, cq := cq } idle
        (fun peer member => by
          change ∃ qpNum, ctx.qps.qpList peer = some qpNum
          rw [qps]
          exact paired peer (List.mem_cons_of_mem _ member))
        (fun peer member => empty peer (List.mem_cons_of_mem _ member))
        (fun peer member => by
          have other : peer ≠ dest := fun equal => fresh (equal ▸ member)
          change ctx.qpPendingSendWr peer = 0
          rw [same peer other]
          exact unused peer (List.mem_cons_of_mem _ member))
      refine ⟨front ++ back, after, first.append others, ?_⟩
      change after.cq.length = cq.length + 255 * rest.length at total
      rw [List.length_cons]
      omega

/-- **The bound fails.** Rank 0 of six writes 255 times to each other rank, and all
writes complete before it polls. -/
theorem completion_queue_overrun : ∃ labels, ∃ cluster : Cluster 6,
    (system 6).Reaches labels cluster ∧ cqEntries < (cluster 0).cq.length := by
  obtain ⟨labels, start, reached, -, started⟩ :=
    exists_started fun _ : Fin 6 => QpTable.direct 6 (by decide)
  obtain ⟨ready, tables⟩ := started 0
  obtain ⟨writes, after, run, length⟩ := fan_run start 0 [1, 2, 3, 4, 5] (by decide) ready.pc_eq
    (fun dest _ => ⟨dest, by rw [tables]; rfl⟩) (fun dest _ => ready.sendQueue_eq dest)
    (fun dest _ => ready.qpPending_eq dest)
  rw [Function.update_eq_self] at run
  refine ⟨_, _, reached.append run, ?_⟩
  rw [Function.update_self, length, ready.cq_eq]
  decide

/-- Rank 0 of two has posted its receive buffers and three writes, of which one has completed. -/
theorem completion_queue_bound_writes : ∃ labels, ∃ cluster : Cluster 2,
    ((system 2).restrict fun before label after =>
      label.Satisfies Node.PostsFit before after).Reaches labels cluster ∧
    (cluster 0).srq.length = prepostDepth ∧ ((cluster 0).sendQueue 1).length = 2 ∧
    (cluster 0).cq ≠ [] ∧ (cluster 0).cq.length ≤ cqEntries := by
  obtain ⟨front, start, ⟨nodes, initial, starting⟩, returning, started⟩ :=
    exists_started fun _ : Fin 2 => QpTable.direct 2 (by decide)
  obtain ⟨ready, tables⟩ := started 0
  have paired : (start 0).ctx.qps.qpList 1 = some 1 := by
    rw [tables]
    rfl
  obtain ⟨ctx, posting, -, qps, -⟩ := Node.posts_run 3 ready.pc_eq
    (show (start 0).ctx.qps.qpList 1 ≠ none by rw [paired]; exact Option.some_ne_none _)
    (by rw [ready.qpPending_eq]; decide)
  rw [ready.sendQueue_eq, List.nil_append] at posting
  let request : Posted := Node.emptyPosted (start 0).ctx 1
  let posted : Node 2 := { start 0 with
    ctx := ctx
    sendQueue := Function.update (start 0).sendQueue 1 (List.replicate 3 request) }
  have queue : posted.sendQueue 1 = request :: [request, request] := by
    simp only [posted, Function.update_self]
    rfl
  have completing := complete_run start 0 queue rfl rfl rfl
    (show ctx.qps.qpList 1 = some 1 by rw [qps, paired])
  have writing := (execution_act posting fun action member => by
    rw [List.eq_of_mem_replicate member]
    rfl).append completing
  have execution := starting.append writing
  have fits := fits_of_unpolled execution (by
      intro rank action member
      obtain ⟨label, listed, taken⟩ := List.mem_flatMap.mp member
      rcases List.mem_append.mp listed with returns | writes
      · have own := returning label returns
        cases label with
        | act actor step =>
            simp only [Label.actionsOf, List.mem_ite_nil_right, List.mem_singleton] at taken
            obtain ⟨-, rfl⟩ := taken
            cases action with
            | poll => cases own
            | _ => rfl
        | _ => cases own
      · simp only [List.map_replicate, List.mem_append, List.mem_replicate, List.mem_cons,
          List.not_mem_nil, or_false] at writes
        rcases writes with ⟨-, rfl⟩ | rfl | rfl
        all_goals
          simp only [Label.actionsOf, List.mem_ite_nil_right, List.mem_append,
            List.mem_singleton] at taken
        · obtain ⟨-, rfl⟩ := taken
          rfl
        · rcases taken with ⟨-, rfl⟩ | ⟨-, rfl⟩ <;> rfl
        · obtain ⟨-, rfl⟩ := taken
          rfl) (by
      have stocked (rank : Fin 2) : (start rank).exposure = prepostDepth := by
        simp [Node.exposure, (started rank).1.cq_eq, (started rank).1.srq_eq,
          (started rank).1.sendQueue_eq, (started rank).1.executed_eq]
      refine Fin.forall_fin_two.mpr ⟨?_, ?_⟩
      · simp [Node.exposure, posted, Fin.sum_univ_two, ready.cq_eq, ready.srq_eq,
          ready.sendQueue_eq, ready.executed_eq, prepostDepth, cqEntries]
      · rw [Function.update_of_ne (by decide), stocked]
        exact (by decide : prepostDepth ≤ cqEntries))
  have reached : ((system 2).restrict fun before label after =>
      label.Satisfies Node.PostsFit before after).Reaches _ _ := ⟨nodes, initial, fits⟩
  refine ⟨_, _, reached, ?_, ?_, ?_, completion_queue_bound reached 0⟩
  · rw [Function.update_self]
    change (start 0).srq.length = _
    simp [ready.srq_eq]
  · simp only [Function.update_self]
    rfl
  · rw [Function.update_self]
    exact List.append_ne_nil_of_right_ne_nil _ (List.cons_ne_nil _ _)

end Cluster

end Ympi.Messaging
