import Ympi.Clients.Refinement
import Ympi.Messaging.Effort

/-! # Settling

Left to itself, a cluster comes to rest: messages are delivered as long as there are receive
buffers for them, requests complete, and the processes handle what they poll until each of
them is between its calls, has a message to hand out, or waits for one. No program goes on
meanwhile. What the calls still have to do goes down with each of these steps.
-/

namespace Ympi.Clients

open LinkedList Foundation Messaging

variable {nprocs : ℕ} {σ : Type}

/-- The measure of a cluster. -/
def totalEffort (cluster : Cluster nprocs) : ℕ :=
  ∑ rank, (cluster rank).effort

/-- Where a process stays without a new message or a new completion. -/
inductive Waits (client : Client nprocs σ) (rank : Fin nprocs) (program : σ)
    (node : Node nprocs) : Prop where
  | between {ret : Int} : node.pc = .idle ret →
      (∀ source next, client.command rank program ≠ .zrecv source next) →
        Waits client rank program node
  | ready {source : Fin nprocs} : node.pc = .head (.recv source) → node.pending source ≠ [] →
        Waits client rank program node
  | blocked {loop : Loop nprocs} : node.pc = .polling loop → node.cq = [] →
        Waits client rank program node

/-- No request is left to deliver or to complete, except to ranks without a receive buffer, and
every process waits. -/
structure Quiet (client : Client nprocs σ) (state : State nprocs σ) : Prop where
  delivered : ∀ source dest,
    (state.cluster source).sendQueue dest = [] ∨ (state.cluster dest).srq = []
  completed : ∀ source dest, (state.cluster source).executed dest = []
  waits : ∀ rank, Waits client rank (state.locals rank) (state.cluster rank)

section Processes

variable {client : Client nprocs σ} {rank : Fin nprocs} {node node' : Node nprocs} {program : σ}
  {action : Action nprocs} {history : List (Action nprocs)}

/-- A step of the process that its program does not see, and that lowers the measure. -/
structure Onward (client : Client nprocs σ) (rank : Fin nprocs) (program : σ)
    (node : Node nprocs) (action : Action nprocs) (node' : Node nprocs) : Prop where
  own : action.isProcess = true
  unstored : ∀ mem, action ≠ .store mem
  invisible : visible action = false
  follows : client.Follows rank program node action
  step : Node.Step node action node'
  less : node'.effort < node.effort

/-- Only a store changes the bytes of requests. -/
theorem leavesSent_act {before after : State nprocs σ} (unstored : ∀ mem, action ≠ .store mem) :
    LeavesSent before (.act rank action) after := by
  cases action with
  | store mem => exact absurd rfl (unstored mem)
  | _ => trivial

/-- A process that is inside a call takes the steps of the call. -/
theorem Client.Follows.of_busy (busy : ∀ ret, node.pc ≠ .idle ret)
    (unposted : ∀ call outcome data, action ≠ .post call outcome data)
    (polls : action ≠ .pollError) (posts : ∀ wr, action ≠ .repost wr false) :
    client.Follows rank program node action where
  enters ret idle := absurd idle (busy ret)
  accepts call outcome data same := absurd same (unposted call outcome data)
  polls := polls
  posts wr same := absurd same (posts wr)

theorem Onward.of_inside (onward : Node.Onward node action node') :
    Onward client rank program node action node' := by
  have inside := onward.inside
  refine ⟨Action.isProcess_of_goesOn inside, ?_, ?_, .of_busy onward.busy ?_ ?_ ?_, onward.step,
    onward.less⟩
  · rintro mem rfl
    cases inside
  · cases action with
    | test | poll | handle | repost | returned => rfl
    | _ => cases inside
  · rintro call outcome data rfl
    cases inside
  · rintro rfl
    cases inside
  · rintro wr rfl
    cases inside

/-- A process waits or goes on. -/
theorem Sound.waits_or_onward (sound : Sound client rank node program)
    (reached : (Node.system nprocs).Reaches history node)
    (posted : ∀ wr, Action.repost wr false ∉ history) :
    Waits client rank program node ∨
      ∃ action node', Onward client rank program node action node' := by
  have inside : (∃ action node', Node.Onward node action node') →
      ∃ action node', Onward client rank program node action node' := by
    rintro ⟨action, node', onward⟩
    exact ⟨action, node', .of_inside onward⟩
  cases located : node.pc with
  | idle ret =>
      by_cases receives : ∃ source next, client.command rank program = .zrecv source next
      · obtain ⟨source, next, named⟩ := receives
        refine Or.inr ⟨_, _, rfl, by simp, rfl, ?_, Node.Step.zrecv source located, ?_⟩
        · refine ⟨?_, by simp, by simp, by simp⟩
          intro _ _
          rw [named]
          exact Or.inl .zrecv
        · refine Node.effort_lt rfl rfl ?_
          simp [Node.pcEffort, located]
      · exact Or.inl (.between located fun source next named => receives ⟨source, next, named⟩)
  | head loop =>
      by_cases nothing : ∀ source, loop = .recv source → node.pending source = []
      · exact Or.inr (inside (Node.onward_test located nothing))
      · push Not at nothing
        obtain ⟨source, rfl, some⟩ := nothing
        exact Or.inl (.ready located some)
  | polling loop =>
      by_cases none : node.cq = []
      · exact Or.inl (.blocked located none)
      · exact Or.inr (inside (Node.onward_poll located none))
  | handling loop batch =>
      apply Or.inr ∘ inside
      apply Node.onward_handle reached _ located
      intro wc waiting
      exact Node.reaches_processWc reached posted waiting (sound.successful wc waiting)
  | returning => exact Or.inr (inside (Node.onward_return reached located))
  | halted halt batch => exact absurd located (sound.running halt batch)

end Processes

section Clusters

variable {client : Client nprocs σ} {start : Fin nprocs → σ} {held : Fin nprocs → ℕ}
  {labels : List (Label nprocs)} {state : State nprocs σ}
  {network : Network (Fin nprocs) Message (Progress nprocs σ)}

theorem totalEffort_update (cluster : Cluster nprocs) (rank : Fin nprocs) (node : Node nprocs) :
    totalEffort (Function.update cluster rank node) + (cluster rank).effort =
      totalEffort cluster + node.effort :=
  sum_update_add Node.effort cluster rank node

/-- The oldest message to a rank with a receive buffer can be delivered. -/
theorem exists_deliver {cluster : Cluster nprocs} {source dest : Fin nprocs}
    (sends : ∀ posted ∈ (cluster source).sendQueue dest, posted.wr.opcode = .send)
    (connected : (cluster dest).ctx.qps.qpList source ≠ none)
    (unsent : (cluster source).sendQueue dest ≠ []) (buffers : (cluster dest).srq ≠ []) :
    ∃ posted wr cluster', Cluster.Step cluster (.deliver source dest posted wr) cluster' ∧
      totalEffort cluster' < totalEffort cluster := by
  obtain ⟨posted, rest, listed⟩ := List.exists_cons_of_ne_nil unsent
  obtain ⟨wr, others, stocked⟩ := List.exists_cons_of_ne_nil buffers
  obtain ⟨qpNum, paired⟩ := Option.ne_none_iff_exists'.mp connected
  have opcode := sends posted (by rw [listed]; exact List.mem_cons_self)
  -- The request leaves the send queue, and its completion is still to come.
  obtain ⟨sender, sent, lighter, stock, context⟩ := Node.exists_execute true [] listed
  have kept : (Function.update cluster source sender dest).srq = wr :: others ∧
      (Function.update cluster source sender dest).ctx.qps.qpList source = some qpNum := by
    by_cases same : dest = source
    · subst same
      rw [Function.update_self, stock, context]
      exact ⟨stocked, paired⟩
    · rw [Function.update_of_ne same]
      exact ⟨stocked, paired⟩
  -- The message takes a receive buffer and leaves a completion.
  obtain ⟨receiver, arrived, heavier⟩ : ∃ receiver,
      Node.Step (Function.update cluster source sender dest) (.arrive source wr posted.data)
        receiver ∧ receiver.effort = (Function.update cluster source sender dest).effort + 5 := by
    refine ⟨_, .arrive posted.data (show _ = [] ++ wr :: others from kept.1) kept.2, ?_⟩
    change Node.effort _ + 0 = (Function.update cluster source sender dest).effort + 5
    refine Node.effort_of_queues rfl rfl ?_
    simp only [Node.queueEffort, List.length_append, List.length_cons, List.length_nil]
    omega
  refine ⟨posted, wr, _, .deliver opcode sent arrived, ?_⟩
  have first := totalEffort_update cluster source sender
  have second := totalEffort_update (Function.update cluster source sender) dest receiver
  omega

/-- A reached state is quiet, or has a step that no program sees and that lowers the
measure. -/
theorem quiet_or_onward (reached : (client.system start held).Reaches labels state)
    (tracks : Tracks labels state network) :
    Quiet client state ∨ ∃ label after, (client.careful start held).Step state label after ∧
      Tracks (labels ++ [label]) after network ∧
        totalEffort after.cluster < totalEffort state.cluster := by
  have sound := reaches_sound reached
  by_cases completed : ∀ source dest, (state.cluster source).executed dest = []
  · by_cases delivered : ∀ source dest,
        (state.cluster source).sendQueue dest = [] ∨ (state.cluster dest).srq = []
    · by_cases waits : ∀ rank, Waits client rank (state.locals rank) (state.cluster rank)
      · exact Or.inl ⟨delivered, completed, waits⟩
      · push Not at waits
        obtain ⟨rank, busy⟩ := waits
        obtain ⟨history, ready, posted⟩ := reaches_rank reached rank
        obtain ⟨action, node, onward⟩ :=
          ((sound rank).waits_or_onward ready posted).resolve_left busy
        have acts := Cluster.Step.act (Action.isNetwork_process onward.own) onward.step
        have kept : holding (Function.update state.cluster rank node rank) =
            holding (state.cluster rank) := by
          rw [Function.update_self]
          have effect := (sound rank).effect ready posted
            (fun _ may => (reaches_linked reached (Or.inl may)).here) onward.follows onward.step
          have invisible := onward.invisible
          cases effect with
          | none _ same => exact same
          | sends | flushes | takes | givesBack => cases invisible
        refine Or.inr ⟨_, _, ⟨.unseen onward.own onward.invisible onward.follows acts,
          leavesSent_act onward.unstored⟩, tracks.unseen acts onward.invisible kept, ?_⟩
        have exchanged := totalEffort_update state.cluster rank node
        have less := onward.less
        simp only
        omega
    · push Not at delivered
      obtain ⟨source, dest, unsent, buffers⟩ := delivered
      obtain ⟨posted, wr, cluster, acts, less⟩ := exists_deliver
        (fun posted member => ((sound source).sends dest posted member).1)
        (reaches_linked reached (Or.inr fun empty => unsent empty.1)).there unsent buffers
      have faultless : Faultless (.deliver source dest posted wr) := trivial
      exact Or.inr ⟨_, _, ⟨.hardware faultless acts, trivial⟩,
        tracks.hardware reached faultless acts, less⟩
  · push Not at completed
    obtain ⟨source, dest, some⟩ := completed
    obtain ⟨history, ready, -⟩ := reaches_rank reached source
    obtain ⟨executed, node, step, less⟩ := Node.exists_complete (Node.reaches_formed ready)
      (reaches_linked reached (Or.inr fun empty => some empty.2)).here
      ((sound source).executed dest) some
    have acts := Cluster.Step.act rfl step
    have faultless : Faultless (.act source (.complete dest executed .success)) := rfl
    refine Or.inr ⟨_, _, ⟨.hardware faultless acts, trivial⟩,
      tracks.hardware reached faultless acts, ?_⟩
    have exchanged := totalEffort_update state.cluster source node
    simp only
    omega

/-- **Settling.** From every reached state the cluster can come to rest while no program goes
on. -/
theorem reaches_quiet (reached : (client.system start held).Reaches labels state)
    (tracks : Tracks labels state network) :
    ∃ more after, (client.careful start held).Execution state more after ∧
      Tracks (labels ++ more) after network ∧ Quiet client after := by
  have begun : (client.careful start held).Execution state [] state := .refl state
  have progress (more : List (Label nprocs)) (after : State nprocs σ)
      (execution : (client.careful start held).Execution state more after)
      (tracks' : Tracks (labels ++ more) after network) : Quiet client after ∨
        ∃ label next, (client.careful start held).Step after label next ∧
          Tracks (labels ++ (more ++ [label])) next network ∧
            totalEffort next.cluster < totalEffort after.cluster := by
    have goesOn := quiet_or_onward (reached.append execution.of_restrict) tracks'
    simp only [List.append_assoc] at goesOn
    exact goesOn
  exact begun.descends (motive := fun more after => Tracks (labels ++ more) after network) progress
    (by rwa [List.append_nil])

end Clusters

end Ympi.Clients
