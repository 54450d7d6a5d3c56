import Ympi.Collective.DataFlow
import Ympi.Messaging.Runs
import Mathlib.Tactic.IntervalCases

/-! # Calls that complete

A rank whose last turn it is writes its block, waits for the completion and enters the
barrier, and two ranks with blocks of one byte go through a whole call.
-/

namespace Ympi.Collective

open LinkedList Foundation Messaging

section General

variable {nprocs : ℕ} {setting : Setting nprocs} {state : State setting}
  {rank target : Fin setting.numprocs}

/-- The cluster goes on while the ranks stay where they are. -/
theorem run_execution {labels : List (Label nprocs)} {cluster : Cluster nprocs}
    (execution : (Cluster.system nprocs).Execution state.cluster labels cluster)
    (permitted : ∀ label ∈ labels, ∀ cluster,
      State.Permits { state with cluster := cluster } label) :
    (system setting).Execution state (labels.map .run) { state with cluster := cluster } := by
  induction execution with
  | refl => exact .refl _
  | snoc earlier step ih =>
      have first := ih fun label member => permitted label (List.mem_append_left _ member)
      have last := permitted _ (List.mem_append_right _ List.mem_cons_self)
      rw [List.map_append]
      exact .snoc first (.run step (last _))

/-- A library call of the collective goes on. -/
theorem library_run {actions : List (Action nprocs)} {node : Node nprocs}
    (execution : ((Node.system nprocs).restrict Node.InCall).Execution (state.node rank) actions
      node) :
    (system setting).Execution state
      (actions.map fun action => .run (.act (setting.worldRank rank) action))
      { state with cluster := Function.update state.cluster (setting.worldRank rank) node } := by
  induction execution with
  | refl =>
      rw [State.node, Function.update_eq_self]
      exact .refl _
  | @snoc mid last actions action earlier step ih =>
      obtain ⟨step, busy, own⟩ := step
      have acts := @Cluster.act_update _ state.cluster (setting.worldRank rank) _ _ _ own step
      have messaging : isMessaging action = true := by
        cases step with
        | postAccepted idle => exact absurd idle (busy _)
        | postRefused idle => exact absurd idle (busy _)
        | _ => rfl
      rw [List.map_append]
      refine .snoc ih (.run acts ⟨messaging, ?_⟩)
      intro other same
      cases setting.distinct same
      refine ⟨fun _ => Or.inr ?_, ?_⟩
      · change ∀ ret, (Function.update state.cluster (setting.worldRank rank) mid _).pc ≠ .idle ret
        rw [Function.update_self]
        exact busy
      · rintro mem rfl
        cases step with
        | store _ idle => exact absurd idle (busy _)

/-- The step enters no call, and its post succeeds if it is one. -/
def Event.Advances (event : Event setting) : Prop :=
  event.Succeeds ∧ ∀ rank, event ≠ .enter rank

/-- A flush that waits for one write takes its completion, and the rank enters the
barrier. -/
theorem flush_run {peer : Fin nprocs} {ctx : Context nprocs} {wc : Wc}
    (stage : (state.threads rank).stage = .copied) (idle : (state.node rank).pc = .idle 0)
    (counted : (state.node rank).ctx = ctx.incPending peer) (only : ctx.pendingSendWr = 0)
    (listed : (state.node rank).cq = [wc]) (successful : wc.status = .success)
    (isSend : wc.isSendTo peer = true) :
    ∃ events final, (system setting).Execution state events final ∧
      (∀ event ∈ events, event.Advances) ∧
      final.threads = Function.update state.threads rank { state.threads rank with
        stage := .barrier } ∧
      final.arrived = Function.update state.arrived (setting.worldRank rank)
        (state.arrived (setting.worldRank rank) + 1) ∧
      final.cluster = Function.update state.cluster (setting.worldRank rank) { state.node rank with
        ctx := ctx
        cq := [] } := by
  let waiting : Node nprocs := { state.node rank with pc := .head .flush }
  let flushing : State setting := { state.withThread rank { state.threads rank with
      stage := .flushing } with
    cluster := Function.update state.cluster (setting.worldRank rank) waiting }
  have started : Step state (.flush rank) flushing := .flush stage (.act rfl (.zflush idle))
  have atNode : flushing.node rank = waiting := Function.update_self ..
  have flushed := @Node.flush_run _ waiting ctx peer wc rfl counted only listed successful isSend
  rw [← atNode] at flushed
  have waited := library_run flushed
  rw [atNode] at waited
  let settled : State setting := { flushing with
    cluster := Function.update flushing.cluster (setting.worldRank rank)
      { waiting with ctx := ctx, pc := .idle 0, cq := [] } }
  have atStage : (settled.threads rank).stage = .flushing := by
    change (Function.update state.threads rank _ rank).stage = _
    rw [Function.update_self]
  have atIdle : (settled.node rank).pc = .idle 0 := by
    change (Function.update flushing.cluster _ _ _).pc = _
    rw [Function.update_self]
  have entered : Step settled (.arrive rank) _ := .arrive atStage atIdle
  have run : (system setting).Execution state _ _ :=
    .cons started (waited.append (.single entered))
  refine ⟨_, _, run, ?_, ?_, rfl, ?_⟩
  · simp [Event.Advances, Event.Succeeds]
  · simp [settled, flushing, State.withThread]
  · simp [settled, flushing, waiting, State.withThread, idle]

/-- The memories of the processes are all that has changed. -/
def KeepsButMemory (before after : Cluster nprocs) : Prop :=
  ∀ peer, ∃ mem, after peer = { before peer with mem := mem }

/-- Nothing stands in the way of a write from `rank` to `target`. -/
structure State.Ready (state : State setting) (rank target : Fin setting.numprocs) : Prop where
  started : (state.node rank).Started
  paired : ∃ qpNum, (state.node rank).ctx.qps.qpList (setting.worldRank target) = some qpNum
  sendable : ∃ buffer, (state.threads rank).statics.sendbuffer (setting.args rank) = some buffer ∧
    Context.inBounds buffer (sizeT (target * setting.size)) setting.size
  permitted : permitsWrite (state.node target).mrs
    ((state.threads rank).statics.recvRkeyList target) (setting.recvBlock rank target) setting.size

/-- A rank stays ready while only memories change and it keeps its static variables. -/
theorem State.Ready.keep {after : State setting} (ready : state.Ready rank target)
    (keeps : KeepsButMemory state.cluster after.cluster)
    (statics : (after.threads rank).statics = (state.threads rank).statics) :
    after.Ready rank target := by
  obtain ⟨mem, own⟩ := keeps (setting.worldRank rank)
  obtain ⟨mem', peer⟩ := keeps (setting.worldRank target)
  refine ⟨?_, ?_, ?_, ?_⟩
  · rw [State.node, own]
    exact ready.started.withMemory mem _
  · rw [State.node, own]
    exact ready.paired
  · rw [statics]
    exact ready.sendable
  · rw [State.node, peer, statics]
    exact ready.permitted

theorem State.Ready.present (ready : state.Ready rank target) :
    (state.node rank).ctx.qps.qpList (setting.worldRank target) ≠ none := by
  obtain ⟨qpNum, paired⟩ := ready.paired
  rw [paired]
  exact Option.some_ne_none _

/-- A rank in the loop knows the ranks of the world. -/
theorem State.writing_tables {dst : ℕ} (coordinated : state.Coordinated)
    (stage : (state.threads rank).stage = .writing dst) (target : Fin setting.numprocs) :
    (state.threads rank).stage ≠ .outside ∧ (state.threads rank).stage ≠ .gathering ∧
      (state.threads rank).statics.alltoallWorldRanks target = setting.worldRank target := by
  have valid := coordinated.valid rank
  have begun : (state.threads rank).stage ≠ .outside := by simp [stage]
  have gathered : (state.threads rank).stage ≠ .gathering := by simp [stage]
  exact ⟨begun, gathered, (valid.tables (valid.started begun) gathered target).2⟩

/-- The request by which `rank` writes its block for `target`. -/
structure State.IsWrite (state : State setting) (rank target : Fin setting.numprocs)
    (posted : Posted) : Prop where
  opcode : posted.wr.opcode = .rdmaWrite
  signaled : posted.wr.sendFlags.signaled = true
  wrId : posted.wr.wrId = ⟨.write, setting.worldRank target⟩
  rkey : posted.wr.rkey = (state.threads rank).statics.recvRkeyList target
  address : posted.wr.remoteAddr = setting.recvBlock rank target
  data : posted.data = readBlock (state.node rank).mem (setting.sendBlock rank target) setting.size

/-- A ready rank whose turn it is to write to `target` does. -/
theorem State.Ready.post (ready : state.Ready rank target) (coordinated : state.Coordinated)
    (stage : (state.threads rank).stage = .writing target) (apart : target ≠ rank) :
    ∃ call posted after, state.IsWrite rank target posted ∧
      Step state (.write rank call .accepted) after ∧
      after.threads = Function.update state.threads rank { state.threads rank with
        stage := .writing ((target + 1) % setting.numprocs) } ∧
      after.arrived = state.arrived ∧
      after.cluster = Function.update state.cluster (setting.worldRank rank) { state.node rank with
        ctx := (state.node rank).ctx.incPending (setting.worldRank target)
        sendQueue := Function.update (state.node rank).sendQueue (setting.worldRank target)
          [posted] } := by
  have started := ready.started
  obtain ⟨begun, gathered, named⟩ := State.writing_tables coordinated stage target
  obtain ⟨buffer, found, inside⟩ := ready.sendable
  have present := ready.present
  obtain ⟨-, opcode, address, data⟩ := Step.writeCall_wr (coordinated.valid rank) begun gathered
    found named
    (state.node rank).ctx (state.node rank).mem
  let call : PostCall nprocs := setting.writeCall rank (state.threads rank).statics buffer target
    (setting.worldRank target)
  have performed : call.perform (state.node rank).ctx .accepted =
      .ok ((state.node rank).ctx.incPending (setting.worldRank target), .idle 0) := by
    have ok := @PostCall.perform_ok _ (state.node rank).ctx call inside present
    have below : ¬ (state.node rank).ctx.qpPendingSendWr call.dest + 1 = maxSendWrPerQp := by
      rw [started.qpPending_eq]
      decide
    rw [if_neg below] at ok
    exact ok
  have posts := Node.Step.postAccepted started.pc_eq performed
  rw [started.sendQueue_eq, List.nil_append, ← started.pc_eq] at posts
  exact ⟨call, _, _, ⟨opcode, rfl, rfl, rfl, address, data⟩,
    .write stage (fun same => apart (Fin.ext same)) found named (.act rfl posts), rfl, rfl, rfl⟩

/-- A ready rank whose turn it is writes its block, and the write completes. -/
theorem State.Ready.write_run (ready : state.Ready rank target) (coordinated : state.Coordinated)
    (stage : (state.threads rank).stage = .writing target) (apart : target ≠ rank) :
    ∃ events final wc, (system setting).Execution state events final ∧
      (∀ event ∈ events, event.Advances) ∧
      final.threads = Function.update state.threads rank { state.threads rank with
        stage := .writing ((target + 1) % setting.numprocs) } ∧
      wc.status = .success ∧ wc.isSendTo (setting.worldRank target) = true ∧
      final.node rank = { state.node rank with
        ctx := (state.node rank).ctx.incPending (setting.worldRank target)
        cq := [wc] } ∧
      ∀ peer, peer ≠ setting.worldRank rank →
        ∃ mem, final.cluster peer = { state.cluster peer with mem := mem } := by
  have started := ready.started
  obtain ⟨qpNum, paired⟩ := ready.paired
  obtain ⟨call, posted, sent, write, posts, threads, -, cluster⟩ :=
    ready.post coordinated stage apart
  let source := setting.worldRank rank
  let dest := setting.worldRank target
  have distinct : source ≠ dest := fun equal => apart (setting.distinct equal).symm
  let posting : Node nprocs := { state.node rank with
    ctx := (state.node rank).ctx.incPending dest
    sendQueue := Function.update (state.node rank).sendQueue dest [posted] }
  have atSource : sent.cluster source = posting := by
    rw [cluster]
    exact Function.update_self ..
  have atOther {peer : Fin nprocs} (other : peer ≠ source) :
      sent.cluster peer = state.cluster peer := by
    rw [cluster]
    exact Function.update_of_ne other ..
  have queued : (sent.cluster source).sendQueue dest = posted :: [] := by
    rw [atSource]
    exact Function.update_self ..
  have permits : permitsWrite (sent.cluster dest).mrs posted.wr.rkey posted.wr.remoteAddr
      posted.data.length := by
    rw [atOther distinct.symm, write.rkey, write.address, write.data, length_readBlock]
    exact ready.permitted
  have landed := Cluster.land_run distinct queued write.opcode permits write.signaled
    (by rw [atSource]; exact paired)
  have moved := run_execution landed (by
    intro label member cluster
    rcases List.mem_cons.mp member with rfl | member
    · trivial
    · rw [List.mem_singleton.mp member]
      exact ⟨rfl, fun _ _ => ⟨nofun, nofun⟩⟩)
  refine ⟨_, _, ⟨posted.wr.wrId, .success, posted.data.length, qpNum⟩, .cons posts moved, ?_,
    threads, rfl, ?_, ?_, ?_⟩
  · simp [Event.Advances, Event.Succeeds]
  · simp [Wc.isSendTo, write.wrId]
  · have emptied : Function.update posting.sendQueue dest [] = (state.node rank).sendQueue := by
      change Function.update (Function.update _ _ _) _ _ = _
      rw [Function.update_idem, ← started.sendQueue_eq dest, Function.update_eq_self]
    change Function.update _ source _ source = _
    rw [Function.update_self, atSource, emptied, started.cq_eq]
    rfl
  · intro peer other
    change ∃ mem, Function.update (Function.update sent.cluster dest _) source _ peer = _
    rw [Function.update_of_ne other]
    by_cases same : peer = dest
    · subst same
      rw [Function.update_self, atOther other]
      exact ⟨_, rfl⟩
    · rw [Function.update_of_ne same, atOther other]
      exact ⟨_, rfl⟩

/-- A rank copies its own block. -/
theorem copy_step {ret : Int} (stage : (state.threads rank).stage = .writing rank)
    (idle : (state.node rank).pc = .idle ret) :
    Step state (.copy rank) { state.withThread rank { state.threads rank with
        stage := .copied } with
      cluster := Function.update state.cluster (setting.worldRank rank) { state.node rank with
        mem := setting.copyOwn rank (state.node rank).mem } } :=
  .copy stage (.act rfl (.store _ idle))

/-- A ready rank whose last turn it is completes its write, copies its own block and
enters the barrier. -/
theorem State.Ready.finish_run (ready : state.Ready rank target) (coordinated : state.Coordinated)
    (stage : (state.threads rank).stage = .writing target) (apart : target ≠ rank)
    (last : (target + 1) % setting.numprocs = rank) :
    ∃ events final, (system setting).Execution state events final ∧
      (∀ event ∈ events, event.Advances) ∧
      final.threads = Function.update state.threads rank { state.threads rank with
        stage := .barrier } ∧
      KeepsButMemory state.cluster final.cluster := by
  obtain ⟨front, wrote, wc, writes, advances, threads, successful, isSend, own, others⟩ :=
    ready.write_run coordinated stage apart
  have atStage : (wrote.threads rank).stage = .writing rank := by
    rw [threads, Function.update_self, last]
  have atIdle : (wrote.node rank).pc = .idle 0 := by
    rw [own]
    exact ready.started.pc_eq
  have copies := copy_step atStage atIdle
  let copied : State setting := { wrote.withThread rank { wrote.threads rank with
      stage := .copied } with
    cluster := Function.update wrote.cluster (setting.worldRank rank) { wrote.node rank with
      mem := setting.copyOwn rank (wrote.node rank).mem } }
  have atNode : copied.node rank = { wrote.node rank with
      mem := setting.copyOwn rank (wrote.node rank).mem } := Function.update_self ..
  obtain ⟨back, final, flushed, advances', threads', arrived, cluster⟩ :=
    @flush_run _ _ copied rank (setting.worldRank target) (state.node rank).ctx wc
      (by simp [copied, State.withThread]) (by rw [atNode]; exact atIdle)
      (by rw [atNode, own]) ready.started.total_eq (by rw [atNode, own]) successful isSend
  refine ⟨_, _, writes.append (.cons copies flushed), ?_, ?_, ?_⟩
  · intro event member
    simp only [List.mem_append, List.mem_cons] at member
    rcases member with earlier | rfl | later
    · exact advances event earlier
    · exact ⟨trivial, nofun⟩
    · exact advances' event later
  · rw [threads']
    simp [copied, State.withThread, threads]
  · intro peer
    by_cases same : peer = setting.worldRank rank
    · subst same
      refine ⟨setting.copyOwn rank (wrote.node rank).mem, ?_⟩
      rw [cluster, Function.update_self, atNode, own, ← ready.started.cq_eq]
    · obtain ⟨mem, before⟩ := others peer same
      refine ⟨mem, ?_⟩
      rw [cluster, Function.update_of_ne same, ← before]
      exact Function.update_of_ne same ..

/-- A rank stores what it likes when no rank is ahead of it. -/
theorem store_step {ret : Int} (outside : (state.threads rank).stage = .outside)
    (idle : (state.node rank).pc = .idle ret)
    (behind : ∀ other, (state.threads other).calls ≤ (state.threads rank).calls)
    (mem : ℕ → UInt8) :
    Step state (.run (.act (setting.worldRank rank) (.store mem))) { state with
      cluster := Function.update state.cluster (setting.worldRank rank) { state.node rank with
        mem := mem } } := by
  refine .run (.act rfl (.store mem idle)) ⟨rfl, ?_⟩
  intro other same
  cases setting.distinct same
  refine ⟨fun _ => Or.inl outside, ?_⟩
  intro _ _ source ahead
  exact absurd ahead (Nat.not_lt.mpr (behind source))

/-- A rank that no other is ahead of returns from its call, stores what it likes to its
memory and enters the next call. -/
theorem reenter_run (coordinated : state.Coordinated)
    (stage : (state.threads rank).stage = .barrier)
    (all : ∀ peer, state.arrived (setting.worldRank rank) ≤ state.arrived peer)
    (idle : (state.node rank).pc = .idle 0)
    (behind : ∀ other, (state.threads other).calls ≤ (state.threads rank).calls)
    (mem : ℕ → UInt8) :
    ∃ events final, (system setting).Execution state events final ∧
      (∀ event ∈ events, event.Succeeds) ∧
      final.threads = Function.update state.threads rank { state.threads rank with
        stage := .writing ((rank + 1) % setting.numprocs)
        calls := (state.threads rank).calls + 1
        entryMem := mem } ∧
      final.arrived = state.arrived ∧
      final.cluster = Function.update state.cluster (setting.worldRank rank) { state.node rank with
        mem := mem } := by
  have valid := coordinated.valid rank
  have begun := valid.started (by simp [stage])
  let outside : State setting := state.withThread rank { state.threads rank with stage := .outside }
  have left : Step state (.leave rank) outside := .leave stage all
  have thread : outside.threads rank = { state.threads rank with stage := .outside } :=
    Function.update_self ..
  have behind' (other : Fin setting.numprocs) :
      (outside.threads other).calls ≤ (outside.threads rank).calls := by
    by_cases same : other = rank
    · rw [same]
    · rw [thread]
      exact (congrArg Thread.calls (Function.update_of_ne same ..)).trans_le (behind other)
  have stores := @store_step _ _ outside rank 0 (by rw [thread]) idle behind' mem
  let stored : State setting := { outside with
    cluster := Function.update outside.cluster (setting.worldRank rank) { outside.node rank with
      mem := mem } }
  have atNode : stored.node rank = { state.node rank with mem := mem } := Function.update_self ..
  have atThread : stored.threads rank = { state.threads rank with stage := .outside } := thread
  have enters := @Step.enterAgain _ _ stored rank 0 (by rw [atThread])
    (by rw [atNode]; exact idle) (by rw [atThread]; exact begun)
    (by rw [atThread]; exact valid.again begun)
  refine ⟨_, _, .cons left (.cons stores (.single enters)), ?_, ?_, rfl, rfl⟩
  · simp [Event.Succeeds]
  · simp [stored, outside, State.withThread, State.node]

/-- The ranks of any communicator can all start. -/
theorem exists_begun (setting : Setting nprocs) (tables : Fin nprocs → QpTable nprocs) :
    ∃ history state, (system setting).Reaches history state ∧
      (∀ event ∈ history, event.Succeeds) ∧
      (∀ rank, (state.cluster rank).Started ∧ (state.cluster rank).ctx.qps = tables rank) ∧
      ∀ rank, state.threads rank = ⟨.init, .outside, none, 0, fun _ => 0⟩ := by
  obtain ⟨labels, cluster, ⟨start, initial, execution⟩, returns, started⟩ :=
    Cluster.exists_started tables
  let state : State setting := ⟨start, fun _ => ⟨.init, .outside, none, 0, fun _ => 0⟩, fun _ => 0⟩
  have begins : Initial state :=
    ⟨initial, fun _ => rfl, fun _ => rfl, fun _ => rfl, fun _ => rfl, fun _ => rfl⟩
  have run := @run_execution _ _ state _ _ execution (by
    intro label member cluster
    cases label with
    | act actor action =>
        have returning : action.isReturn = true := returns _ member
        refine ⟨?_, fun _ _ => ⟨fun _ => Or.inl rfl, ?_⟩⟩
        · cases action with
          | post => cases returning
          | _ => rfl
        · rintro _ rfl
          cases returning
    | _ => trivial)
  refine ⟨_, _, ⟨state, begins, run⟩, ?_, started, fun _ => rfl⟩
  intro event member
  obtain ⟨label, -, rfl⟩ := List.mem_map.mp member
  trivial

/-- The ranks of the communicator take one step each, in any order, when no step of
another rank gets in the way. -/
theorem each_rank {threads : Fin setting.numprocs → Thread}
    {nodes : Fin setting.numprocs → Node nprocs} {event : Fin setting.numprocs → Event setting}
    (step : ∀ (now : State setting) rank, now.threads rank = state.threads rank →
      now.node rank = state.node rank →
      (∀ peer, now.threads peer = state.threads peer ∨ now.threads peer = threads peer) →
        Step now (event rank) { now.withThread rank (threads rank) with
          cluster := Function.update now.cluster (setting.worldRank rank) (nodes rank) })
    (done : List (Fin setting.numprocs)) (distinct : done.Nodup) :
    ∃ final, (system setting).Execution state (done.map event) final ∧
      ∀ rank, final.threads rank = (if rank ∈ done then threads rank else state.threads rank) ∧
        final.node rank = if rank ∈ done then nodes rank else state.node rank := by
  induction done using List.reverseRecOn with
  | nil => exact ⟨state, .refl _, fun rank => ⟨by simp, by simp⟩⟩
  | append_singleton done last ih =>
      obtain ⟨earlier, -, fresh⟩ := List.nodup_append.mp distinct
      have waiting : last ∉ done := fun member =>
        fresh last member last (List.mem_singleton.mpr rfl) rfl
      obtain ⟨now, run, reached⟩ := ih earlier
      have next := step now last (by rw [(reached last).1, if_neg waiting])
        (by rw [(reached last).2, if_neg waiting]) (by
          intro peer
          rw [(reached peer).1]
          split
          · exact Or.inr rfl
          · exact Or.inl rfl)
      rw [List.map_append]
      refine ⟨_, .snoc run next, ?_⟩
      intro rank
      change Function.update now.threads last _ rank = _ ∧
        Function.update now.cluster (setting.worldRank last) _ (setting.worldRank rank) = _
      by_cases same : rank = last
      · subst same
        simp
      · have apart : setting.worldRank rank ≠ setting.worldRank last :=
          fun equal => same (setting.distinct equal)
        have listed : rank ∈ done ++ [last] ↔ rank ∈ done := by simp [same]
        rw [Function.update_of_ne same, Function.update_of_ne apart]
        simp only [listed]
        exact reached rank

/-- The keys of the registrations in the runs below. -/
def someKeys : Keys := ⟨0, 0, 0, 0⟩

/-- What a rank contributes to the gathers of its first call. -/
def offer (setting : Setting nprocs) (rank : Fin setting.numprocs) : Contribution :=
  ⟨(setting.registered rank someKeys).2.mr.rkey, (setting.args rank).recvbuf,
    setting.worldRank rank⟩

/-- All ranks of the communicator take one step each. -/
theorem all_ranks {threads : Fin setting.numprocs → Thread}
    {nodes : Fin setting.numprocs → Node nprocs} {event : Fin setting.numprocs → Event setting}
    (step : ∀ (now : State setting) rank, now.threads rank = state.threads rank →
      now.node rank = state.node rank →
      (∀ peer, now.threads peer = state.threads peer ∨ now.threads peer = threads peer) →
        Step now (event rank) { now.withThread rank (threads rank) with
          cluster := Function.update now.cluster (setting.worldRank rank) (nodes rank) }) :
    ∃ final, (system setting).Execution state ((List.finRange setting.numprocs).map event) final ∧
      ∀ rank, final.threads rank = threads rank ∧ final.node rank = nodes rank := by
  obtain ⟨final, run, moved⟩ := each_rank step (List.finRange _) (List.nodup_finRange _)
  simp only [List.mem_finRange, if_true] at moved
  exact ⟨final, run, moved⟩

/-- All ranks enter their first call. -/
theorem enter_run {statics : Fin setting.numprocs → Statics}
    (performed : ∀ rank, Statics.init.first setting.comm (setting.args rank)
      (setting.registered rank someKeys) = .ok (statics rank))
    (idle : ∀ rank, (state.node rank).pc = .idle 0)
    (fresh : ∀ rank, state.threads rank = ⟨.init, .outside, none, 0, fun _ => 0⟩) :
    ∃ final, (system setting).Execution state ((List.finRange setting.numprocs).map .enter) final ∧
      ∀ rank, final.threads rank =
          ⟨statics rank, .gathering, some (offer setting rank), 1, (state.node rank).mem⟩ ∧
        final.node rank = { state.node rank with
          mrs := (setting.args rank).registrations (setting.registered rank someKeys) ++
            (state.node rank).mrs } := by
  apply all_ranks
  intro now rank thread node _
  rw [fresh] at thread
  have step := @Step.enterFirst _ _ now rank 0 (statics rank) someKeys (by rw [thread])
    (by rw [node]; exact idle rank) (by rw [thread]; rfl) (by rw [thread]; exact performed rank)
  rw [thread, node] at step
  exact step

/-- All ranks complete the gathers of their first call. -/
theorem gather_run (gathering : ∀ rank, (state.threads rank).stage = .gathering)
    (offered : ∀ rank, (state.threads rank).offered = some (offer setting rank)) :
    ∃ final, (system setting).Execution state ((List.finRange setting.numprocs).map .gather) final ∧
      ∀ rank, final.threads rank = { state.threads rank with
          statics := (state.threads rank).statics.gather (offer setting)
          stage := .writing ((rank + 1) % setting.numprocs) } ∧
        final.node rank = state.node rank := by
  apply all_ranks
  intro now rank thread node others
  have step := @Step.gather _ _ now rank (offer setting) (by rw [thread, gathering]) (by
    intro peer
    rcases others peer with same | same <;> (rw [same]; exact offered peer))
  have kept : Function.update now.cluster (setting.worldRank rank) (state.node rank) =
      now.cluster := by
    rw [← node]
    exact Function.update_eq_self ..
  rw [kept, ← thread]
  exact step

/-- The registered buffers of a call with pointers have room for all blocks. -/
theorem block_le_registered (fits : setting.size * setting.numprocs * setting.numprocs < 2 ^ 64) :
    target * setting.size + setting.size ≤
      sizeT (sizeT (setting.size * setting.numprocs) * setting.numprocs) := by
  have some : 1 ≤ setting.numprocs := Nat.one_le_of_lt target.isLt
  have once : setting.size * setting.numprocs ≤
      setting.size * setting.numprocs * setting.numprocs := Nat.le_mul_of_pos_right _ some
  have block := setting.block_le target
  rw [Nat.mul_comm setting.numprocs] at block
  unfold sizeT
  rw [Nat.mod_eq_of_lt (show setting.size * setting.numprocs < 2 ^ 64 by omega),
    Nat.mod_eq_of_lt fits]
  exact block.trans once

/-- The bounds check of `YMPI_Write` passes for every block. -/
theorem registered_inBounds {sendbuf recvbuf : ℕ}
    (given : setting.args rank = .pointers sendbuf recvbuf)
    (fits : setting.size * setting.numprocs * setting.numprocs < 2 ^ 64) :
    Context.inBounds (setting.registered rank someKeys).1 (sizeT (target * setting.size))
      setting.size := by
  have bytes : (setting.registered rank someKeys).1.bytes =
      sizeT (sizeT (setting.size * setting.numprocs) * setting.numprocs) := by
    rw [Setting.registered, given]
    rfl
  have block := @block_le_registered _ _ target fits
  have wrapped : sizeT (target * setting.size) ≤ target * setting.size := Nat.mod_le _ _
  have total : sizeT (sizeT (target * setting.size) + setting.size) ≤
      sizeT (target * setting.size) + setting.size := Nat.mod_le _ _
  rw [Context.inBounds, bytes]
  omega

/-- The registration of a receive buffer permits the writes of all blocks. -/
theorem registered_permits {sendbuf recvbuf : ℕ}
    (given : setting.args target = .pointers sendbuf recvbuf)
    (fits : setting.size * setting.numprocs * setting.numprocs < 2 ^ 64) (mrs : List Mr) :
    permitsWrite
      ((setting.args target).registrations (setting.registered target someKeys) ++ mrs)
      (offer setting target).rkey (setting.recvBlock rank target) setting.size := by
  have block := @block_le_registered _ _ rank fits
  refine Or.inr ⟨(setting.registered target someKeys).2.mr, ?_, rfl, ?_, ?_⟩
  · apply List.mem_append_left _
    rw [given]
    exact List.mem_cons_self
  · rw [Setting.registered, given]
    rfl
  · rw [Setting.registered, Setting.recvBlock, given]
    exact ⟨Nat.le_add_right _ _, by rw [Nat.add_assoc]; exact Nat.add_le_add_left block _⟩

/-- The ranks of a communicator that call `YMPI_Alltoall_write_ptr` get to the loop of
their first call, and nothing stands in the way of a write. -/
theorem exists_ready (setting : Setting nprocs) (small : nprocs ≤ qpnHashSize)
    (pointers : ∀ rank, ∃ sendbuf recvbuf, setting.args rank = .pointers sendbuf recvbuf)
    (fits : setting.size * setting.numprocs * setting.numprocs < 2 ^ 64) :
    ∃ history state, (system setting).Reaches history state ∧
      (∀ event ∈ history, event.Succeeds) ∧ (∀ rank target, state.Ready rank target) ∧
      ∀ rank, (state.threads rank).stage = .writing ((rank + 1) % setting.numprocs) ∧
        (state.threads rank).calls = 1 := by
  obtain ⟨history, state, reached, succeeds, started, fresh⟩ :=
    exists_begun setting fun _ => QpTable.direct nprocs small
  choose statics performed using fun rank =>
    @Statics.first_ok _ setting Statics.init rank (setting.registered rank someKeys)
  obtain ⟨inside, entering, entered⟩ :=
    enter_run performed (fun rank => (started (setting.worldRank rank)).1.pc_eq) fresh
  obtain ⟨final, gathering, gathered⟩ :=
    @gather_run _ _ inside (fun rank => by rw [(entered rank).1]) fun rank => by
      rw [(entered rank).1]
  have atNode (rank : Fin setting.numprocs) : final.node rank = { state.node rank with
      mrs := (setting.args rank).registrations (setting.registered rank someKeys) ++
        (state.node rank).mrs } :=
    (gathered rank).2.trans (entered rank).2
  have atThread (rank : Fin setting.numprocs) : final.threads rank =
      ⟨(statics rank).gather (offer setting), .writing ((rank + 1) % setting.numprocs),
        some (offer setting rank), 1, (state.node rank).mem⟩ := by
    rw [(gathered rank).1, (entered rank).1]
  refine ⟨_, final, (reached.append entering).append gathering, ?_, ?_, ?_⟩
  · intro event member
    simp only [List.mem_append, List.mem_map] at member
    rcases member with (earlier | ⟨_, -, rfl⟩) | ⟨_, -, rfl⟩
    · exact succeeds event earlier
    · trivial
    · trivial
  · intro rank target
    have found := (Statics.first_eq_ok (performed rank)).2.2
    obtain ⟨_, _, own⟩ := pointers rank
    obtain ⟨_, _, other⟩ := pointers target
    refine ⟨?_, ⟨(setting.worldRank target).val, ?_⟩, ⟨_, ?_, registered_inBounds own fits⟩, ?_⟩
    · rw [atNode]
      exact (started (setting.worldRank rank)).1.withMemory _ _
    · rw [atNode]
      change (state.node rank).ctx.qps.qpList _ = _
      rw [(started _).2]
      rfl
    · rw [atThread, Statics.gather_sendbuffer, found]
    · rw [atNode, atThread, (Statics.gather_tables _ _ target).1]
      exact registered_permits other fits _
  · intro rank
    rw [atThread]
    exact ⟨rfl, rfl⟩

end General

section Pair

/-- Two ranks with blocks of one byte that call `YMPI_Alltoall_write_ptr`. -/
def pair : Setting 2 where
  comm := 0
  numprocs := 2
  worldRank := id
  size := 1
  args _ := .pointers 4096 8192
  distinct := Function.injective_id
  fitsTables := by decide
  size_lt := by decide
  buffers _ := ⟨by decide, by decide, by decide, by decide, by decide⟩

namespace pair

def first : Fin pair.numprocs := ⟨0, by decide⟩

def second : Fin pair.numprocs := ⟨1, by decide⟩

theorem first_or_second (rank : Fin pair.numprocs) : rank = first ∨ rank = second := by
  obtain ⟨rank, below⟩ := rank
  have two : rank < 2 := below
  interval_cases rank
  · exact Or.inl rfl
  · exact Or.inr rfl

theorem second_ne_first : second ≠ first := by decide

/-- Both ranks reach the barrier of their first call. -/
theorem barrier_run : ∃ history state, (system pair).Reaches history state ∧
    (∀ event ∈ history, event.Succeeds) ∧ (∀ rank target, state.Ready rank target) ∧
    ∀ rank, (state.threads rank).stage = .barrier ∧ (state.threads rank).calls = 1 := by
  obtain ⟨history, state, reached, succeeds, ready, writing⟩ :=
    exists_ready pair (by decide) (fun _ => ⟨4096, 8192, rfl⟩) (by decide)
  obtain ⟨front, middle, run, advances, threads, kept⟩ := (ready first second).finish_run
    (reaches_coordinated reached) (writing first).1
    second_ne_first rfl
  have waiting : middle.threads second = state.threads second := by
    rw [threads]
    exact Function.update_of_ne second_ne_first ..
  have statics (rank : Fin pair.numprocs) :
      (middle.threads rank).statics = (state.threads rank).statics := by
    rcases first_or_second rank with rfl | rfl
    · rw [threads, Function.update_self]
    · rw [waiting]
  have ready' (rank target : Fin pair.numprocs) : middle.Ready rank target :=
    (ready rank target).keep kept (statics rank)
  obtain ⟨back, final, run', advances', threads', kept'⟩ := (ready' second first).finish_run
    (reaches_coordinated (reached.append run)) (by rw [waiting]; exact (writing second).1)
    second_ne_first.symm rfl
  refine ⟨_, final, (reached.append run).append run', ?_, ?_, ?_⟩
  · intro event member
    rcases List.mem_append.mp member with earlier | later
    · rcases List.mem_append.mp earlier with begun | inside
      · exact succeeds event begun
      · exact (advances event inside).1
    · exact (advances' event later).1
  · intro rank target
    apply (ready' rank target).keep kept'
    rcases first_or_second rank with rfl | rfl
    · rw [threads', Function.update_of_ne second_ne_first.symm]
    · rw [threads', Function.update_self]
  · intro rank
    rcases first_or_second rank with rfl | rfl
    · rw [threads', Function.update_of_ne second_ne_first.symm, threads, Function.update_self]
      exact ⟨rfl, (writing first).2⟩
    · rw [threads', Function.update_self, waiting]
      exact ⟨rfl, (writing second).2⟩

/-- In the barrier of the same call no rank is ahead of another. -/
theorem arrived_le {state : State pair} {calls : ℕ} (coordinated : state.Coordinated)
    (atBarrier : ∀ rank, (state.threads rank).stage = .barrier ∧
      (state.threads rank).calls = calls)
    (rank : Fin pair.numprocs) (peer : Fin 2) :
    state.arrived (pair.worldRank rank) ≤ state.arrived peer := by
  have arrived (rank : Fin pair.numprocs) : state.arrived (pair.worldRank rank) = calls := by
    rw [coordinated.arrived, Thread.barriers, if_pos (Or.inr (atBarrier rank).1),
      (atBarrier rank).2]
  have other : state.arrived peer = calls := arrived peer
  rw [arrived, other]

/-- The second rank has returned from its first call and entered the next one with another
value to send, while the first rank is still in the barrier. -/
theorem ahead_run (value : (ℕ → UInt8) → UInt8) : ∃ history state posted,
    (system pair).Reaches history state ∧ (∀ event ∈ history, event.Succeeds) ∧
      (state.threads first).stage = .barrier ∧
      (∀ peer, state.arrived (pair.worldRank first) ≤ state.arrived peer) ∧
      (state.node second).sendQueue (pair.worldRank first) = [posted] ∧
      posted.wr.opcode = .rdmaWrite ∧ posted.wr.remoteAddr = pair.recvBlock second first ∧
      posted.data = [value (state.node first).mem] ∧
      permitsWrite (state.node first).mrs posted.wr.rkey posted.wr.remoteAddr
        posted.data.length := by
  obtain ⟨history, before, reached, succeeds, ready, atBarrier⟩ := barrier_run
  have coordinated := reaches_coordinated reached
  have all := arrived_le coordinated atBarrier
  obtain ⟨events, again, run, succeeds', threads, kept, cluster⟩ := reenter_run coordinated
    (atBarrier second).1 (all second) (ready second first).started.pc_eq
    (fun rank => by rw [(atBarrier rank).2, (atBarrier second).2])
    fun _ => value (before.node first).mem
  have apart : pair.worldRank first ≠ pair.worldRank second := by decide
  have atFirst : again.node first = before.node first := by
    rw [State.node, cluster, Function.update_of_ne apart]
  have ready' : again.Ready second first := by
    apply (ready second first).keep
    · intro peer
      rw [cluster]
      by_cases same : peer = pair.worldRank second
      · subst same
        exact ⟨_, Function.update_self ..⟩
      · exact ⟨_, Function.update_of_ne same ..⟩
    · rw [threads, Function.update_self]
  have turn : (again.threads second).stage = .writing first := by
    rw [threads, Function.update_self]
    rfl
  obtain ⟨call, posted, sent, write, posts, threads', kept', cluster'⟩ :=
    ready'.post (reaches_coordinated (reached.append run)) turn second_ne_first.symm
  have stays : sent.node first = before.node first := by
    rw [State.node, cluster', Function.update_of_ne apart, ← State.node, atFirst]
  refine ⟨_, sent, posted, (reached.append run).step posts, ?_, ?_, ?_, ?_, write.opcode,
    write.address, ?_, ?_⟩
  · intro event member
    simp only [List.mem_append, List.mem_singleton] at member
    rcases member with (earlier | later) | rfl
    · exact succeeds event earlier
    · exact succeeds' event later
    · rfl
  · rw [threads', Function.update_of_ne second_ne_first.symm, threads,
      Function.update_of_ne second_ne_first.symm]
    exact (atBarrier first).1
  · intro peer
    rw [kept', kept]
    exact all first peer
  · rw [State.node, cluster', Function.update_self]
    simp
  · rw [write.data, stays, State.node, cluster, Function.update_self]
    rfl
  · rw [stays, ← atFirst, write.rkey, write.address, write.data, length_readBlock]
    exact ready'.permitted

end pair

end Pair

end Ympi.Collective
