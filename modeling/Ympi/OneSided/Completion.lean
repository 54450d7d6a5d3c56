import Ympi.Clients.Script
import Ympi.Messaging.Effort
import Ympi.OneSided.Sequential

/-! # One-sided programs can come to their ends

The requests of a program need nothing from the process of the target, so from every reached state
the issuer can return from its last call: the target can answer a read, its bytes can be put in
place, an executed request can complete, the oldest one can be executed, and a polling loop finds
its completion.
-/

namespace Ympi.OneSided

open LinkedList Foundation Messaging Clients

variable {nprocs : ℕ} {program : Program nprocs} {start : Stores UInt8}
  {events : List (Event nprocs)} {state : State nprocs}

/-- The steps that a read still needs. -/
def Reading.stepsLeft (reading : Reading) : ℕ :=
  match reading.answer with
  | none => 2
  | some _ => 1

/-- What is left to do for the issuer. -/
def workLeft (program : Program nprocs) (state : State nprocs) : ℕ :=
  3 * (13 * state.todo.length + (state.cluster program.issuer).effort) +
    (state.reads.map Reading.stepsLeft).sum

section Node

variable {node : Node nprocs} {history : List (Action nprocs)} {todo : List Access}

/-- An issuer without requests has nothing outstanding when it has polled everything. -/
theorem Issuing.outstanding_eq_zero (issuing : Issuing program node)
    (unsent : node.sendQueue program.target = []) (completed : node.executed program.target = [])
    (polled : node.unhandled = []) (peer : Fin nprocs) : node.outstanding peer = 0 := by
  rw [Node.outstanding, polled]
  by_cases same : peer = program.target
  · subst same
    rw [unsent, completed]
    rfl
  · rw [(issuing.elsewhere peer same).1, (issuing.elsewhere peer same).2]
    rfl

/-- A polling loop without requests finds a completion in the completion queue. -/
theorem Issuing.cq_ne_nil (issuing : Issuing program node)
    (reached : (Node.system nprocs).Reaches history node)
    (unsent : node.sendQueue program.target = []) (completed : node.executed program.target = [])
    {loop : Loop nprocs} (polling : node.pc = .polling loop)
    (waits : ∀ source, loop ≠ .recv source) : node.cq ≠ [] := by
  intro empty
  have polled : node.unhandled = [] := by
    rw [Node.unhandled, polling, empty]
    rfl
  have none := issuing.outstanding_eq_zero unsent completed polled
  have tested := Node.reaches_tested reached
  cases loop with
  | throttle dest =>
      have some := tested.throttle polling
      rw [Node.reaches_qpPending reached, none] at some
      exact absurd some (by decide)
  | flush =>
      have some := tested.flush polling
      have total := Node.reaches_pendingTotal reached
      simp only [Node.reaches_qpPending reached, none, Nat.cast_zero, Finset.sum_const_zero]
        at total
      omega
  | recv source => exact waits source rfl

/-- The issuer is between its calls, or its call goes on. -/
theorem Issuing.idle_or_onward (issuing : Issuing program node)
    (reached : (Node.system nprocs).Reaches history node)
    (unsent : node.sendQueue program.target = [])
    (completed : node.executed program.target = []) :
    (∃ ret, node.pc = .idle ret) ∨ ∃ action node', Node.Onward node action node' := by
  have inside (call : Call nprocs) (loops : ∀ source, call.loop ≠ some (.recv source))
      (other : call ≠ .giveBack) (serves : node.pc.Serves call) :
      ∃ action node', Node.Onward node action node' := by
    generalize located : node.pc = pc at serves
    cases serves with
    | @head loop own =>
        apply Node.onward_test located
        rintro source rfl
        exact absurd own (loops source)
    | @polling loop own =>
        apply Node.onward_poll located
        apply issuing.cq_ne_nil reached unsent completed located
        rintro source rfl
        exact loops source own
    | handling batch own =>
        apply Node.onward_handle reached _ located
        intro wc waiting
        obtain ⟨successful, isSend⟩ := issuing.settles wc waiting
        exact ⟨_, Context.processWc_send successful isSend⟩
    | returning same => exact absurd same other
    | halted halt batch => exact absurd located (issuing.running halt batch)
  rcases issuing.located with ⟨idle⟩ | ⟨-, serves⟩ | serves
  · exact Or.inl ⟨_, idle⟩
  · exact Or.inr (inside _ (fun source => by simp [Call.loop]) (by simp) serves)
  · exact Or.inr (inside _ (fun source => by simp [Call.loop]) (by simp) serves)

/-- Between its calls the issuer can enter the next one. -/
theorem Issuing.exists_enter (issuing : Issuing program node) {access : Access}
    (fits : access.Fits program.rights) (rest : List Access) {ret : Int}
    (idle : node.pc = .idle ret) :
    ∃ action node', action.isProcess = true ∧
      program.Follows (access :: rest) node action ∧ Node.Step node action node' ∧
      advance (access :: rest) action = rest ∧ node'.effort ≤ node.effort + 12 := by
  have follows {action : Action nprocs} (starts : (access.call program.target).Starts action)
      (accepted : ∀ call outcome data, action = .post call outcome data → outcome = .accepted)
      (polls : action ≠ .pollError) : program.Follows (access :: rest) node action :=
    ⟨fun _ _ => ⟨access, rest, rfl, .starts starts⟩,
      fun call outcome data same refused => absurd (accepted call outcome data same) refused, polls⟩
  cases named : access.call program.target with
  | post call =>
      obtain ⟨dest, inside⟩ := Access.call_eq_post named fits
      have performed := PostCall.perform_ok inside (show node.ctx.qps.qpList call.dest ≠ none by
        rw [dest]
        exact issuing.linked)
      have more := sum_update_add List.length node.sendQueue call.dest
        (node.sendQueue call.dest ++ [⟨call.wr node.ctx, (call.wr node.ctx).gather node.mem⟩])
      rw [List.length_append, List.length_singleton] at more
      -- the call throttles at the limit of the queue pair, and returns below it
      split at performed
      all_goals
        refine ⟨_, _, rfl, follows (named ▸ .post call .accepted _) (by simp) (by simp),
          Node.Step.postAccepted idle performed, rfl, ?_⟩
        simp only [Node.effort, Node.queueEffort, Node.pcEffort, idle]
        omega
  | zflush =>
      refine ⟨_, _, rfl, follows (named ▸ .zflush) (by simp) (by simp), Node.Step.zflush idle, rfl,
        ?_⟩
      simp only [Node.effort, Node.queueEffort, Node.pcEffort, idle]
      omega
  | zrecv | giveBack => cases access <;> cases named

end Node

/-- Scattering what is in place changes nothing. -/
theorem scatter_gather (wr : SendWr) (mem : ℕ → UInt8) : wr.scatter mem (wr.gather mem) = mem := by
  unfold SendWr.scatter SendWr.gather
  split
  next sge _ listed =>
    rw [listed]
    exact writeBlock_readBlock mem sge.addr sge.length
  next => rfl

section Progress

variable {done : List Access} {made late pending : List Copy}

/-- The oldest read can be answered, or its bytes can be put in place. -/
theorem Consistent.exists_bring
    (consistent : Consistent program start state done made late pending)
    (sound : Sound program state.cluster) (waiting : state.reads ≠ []) :
    ∃ event after, program.Step state event after ∧
      workLeft program after < workLeft program state := by
  obtain ⟨⟨posted, answer⟩, rest, listed⟩ := List.exists_cons_of_ne_nil waiting
  cases answer with
  | none =>
      have permits := consistent.permitted ⟨posted, none⟩ (by rw [listed]; exact List.mem_cons_self)
      have reading := consistent.reading
      rw [listed] at reading
      have read : posted.wr.opcode = .rdmaRead := by
        cases reading with
        | @cons copy _ _ _ brings _ =>
            cases copy with
            | put => exact brings.elim
            | get => exact brings.1.1
      rw [Permitted, read, ← sound.rights] at permits
      have splits : state.reads = [] ++ ⟨posted, none⟩ :: rest := listed
      refine ⟨_, _, .answer splits permits, ?_⟩
      simp only [workLeft, listed, List.nil_append, List.map_cons, List.sum_cons,
        Reading.stepsLeft]
      omega
  | some bytes =>
      refine ⟨_, _, .bring listed, ?_⟩
      have same : Node.effort { state.cluster program.issuer with
          mem := posted.wr.scatter (state.cluster program.issuer).mem bytes } =
            (state.cluster program.issuer).effort := rfl
      simp only [workLeft, Function.update_self, same, listed, List.map_cons, List.sum_cons,
        Reading.stepsLeft]
      omega

/-- An executed request can complete when no read is waiting for its bytes. -/
theorem Sound.exists_complete {history : List (Action nprocs)} (sound : Sound program state.cluster)
    (ready : (Node.system nprocs).Reaches history (state.cluster program.issuer))
    (brought : state.reads = [])
    (some : (state.cluster program.issuer).executed program.target ≠ []) :
    ∃ event after, program.Step state event after ∧
      workLeft program after < workLeft program state := by
  obtain ⟨executed, node, step, less⟩ := Node.exists_complete (Node.reaches_formed ready)
    sound.issuing.linked sound.issuing.effected some
  have completes := step
  cases step with
  | complete _ splits =>
      refine ⟨_, _, .complete splits ?_ completes (Function.update_self ..), ?_⟩
      · rw [brought]
        exact Nat.zero_le _
      · simp only [workLeft, Function.update_self]
        omega

/-- The oldest request can be executed, for the target permits it. -/
theorem Sound.exists_execute (sound : Sound program state.cluster)
    (unsent : (state.cluster program.issuer).sendQueue program.target ≠ []) :
    ∃ event after, program.Step state event after ∧
      workLeft program after < workLeft program state := by
  obtain ⟨posted, rest, listed⟩ := List.exists_cons_of_ne_nil unsent
  have permits := sound.issuing.permitted posted (by rw [listed]; exact List.mem_cons_self)
  rw [Permitted, ← sound.rights] at permits
  cases opcode : posted.wr.opcode with
  | send =>
      rw [opcode] at permits
      exact permits.elim
  | rdmaWrite =>
      rw [opcode] at permits
      obtain ⟨sender, sent, lighter, -, -⟩ := Node.exists_execute true [] listed
      have faultless : Faultless (.rdmaWrite program.issuer program.target posted true) := trivial
      refine ⟨_, _, .hardware faultless trivial (.writeDone opcode permits sent (.land _ _)), ?_⟩
      simp only [workLeft, Function.update_of_ne program.distinct, Function.update_self]
      omega
  | rdmaRead =>
      -- nothing is put in place yet
      obtain ⟨sender, sent, lighter, -, -⟩ := Node.exists_execute true
        (posted.wr.gather (state.cluster program.issuer).mem) listed
      have kept : sender.mem = (state.cluster program.issuer).mem :=
        sent.mem_ledger.trans (scatter_gather _ _)
      refine ⟨_, _, .ask opcode sent kept, ?_⟩
      simp only [workLeft, Function.update_self, List.map_append, List.map_singleton,
        List.sum_append, List.sum_singleton, Reading.stepsLeft]
      omega

/-- Without requests the issuer is at the end, or its process goes on. -/
theorem Consistent.finished_or_process {history : List (Action nprocs)}
    (consistent : Consistent program start state done made late pending)
    (sound : Sound program state.cluster)
    (ready : (Node.system nprocs).Reaches history (state.cluster program.issuer))
    (unsent : (state.cluster program.issuer).sendQueue program.target = [])
    (completed : (state.cluster program.issuer).executed program.target = []) :
    program.Finished state ∨ ∃ event after, program.Step state event after ∧
      workLeft program after < workLeft program state := by
  rcases sound.issuing.idle_or_onward ready unsent completed with ⟨ret, idle⟩ | onwards
  · cases left : state.todo with
    | nil => exact Or.inl ⟨left, ret, idle⟩
    | cons access rest =>
        have fits := program.fits access (by rw [consistent.parts, left]; simp)
        obtain ⟨action, node, own, follows, step, advanced, heavier⟩ :=
          sound.issuing.exists_enter fits rest idle
        rw [← left] at follows
        refine Or.inr ⟨_, _, .process own follows (.act (Action.isNetwork_process own) step), ?_⟩
        simp only [workLeft, Function.update_self, advanced, left, List.length_cons]
        omega
  · obtain ⟨action, node, onward⟩ := onwards
    have own := Action.isProcess_of_goesOn onward.inside
    have inside := onward.inside
    have follows : program.Follows state.todo (state.cluster program.issuer) action := by
      refine ⟨fun ret idle => absurd idle (onward.busy ret), ?_, ?_⟩
      · rintro call outcome data rfl
        cases inside
      · rintro rfl
        cases inside
    have stays : advance state.todo action = state.todo := by
      cases action with
      | post | zflush => cases inside
      | _ => rfl
    refine Or.inr ⟨_, _, .process own follows
      (.act (Action.isNetwork_process own) onward.step), ?_⟩
    have less := onward.less
    simp only [workLeft, Function.update_self, stays]
    omega

end Progress

/-- A reached state is at the end, or has a step after which less is left to do. -/
theorem finished_or_step (reached : (program.system start).Reaches events state) :
    program.Finished state ∨ ∃ event after, program.Step state event after ∧
      workLeft program after < workLeft program state := by
  obtain ⟨sound, done, made, late, pending, consistent⟩ := reaches_consistent reached
  obtain ⟨history, ready⟩ := reaches_rank reached program.issuer
  by_cases brought : state.reads = []
  · by_cases completed : (state.cluster program.issuer).executed program.target = []
    · by_cases unsent : (state.cluster program.issuer).sendQueue program.target = []
      · exact consistent.finished_or_process sound ready unsent completed
      · exact Or.inr (sound.exists_execute unsent)
    · exact Or.inr (sound.exists_complete ready brought completed)
  · exact Or.inr (consistent.exists_bring sound brought)

/-- From every reached state the issuer can return from its last call. -/
theorem can_finish (reached : (program.system start).Reaches events state) :
    ∃ more after, (program.system start).Execution state more after ∧ program.Finished after := by
  have progress (events : List (Event nprocs)) (state : State nprocs)
      (reached : (program.system start).Reaches events state) (_ : True) :
      program.Finished state ∨ ∃ event after, program.Step state event after ∧ True ∧
        workLeft program after < workLeft program state :=
    (finished_or_step reached).imp id fun ⟨event, after, step, less⟩ =>
      ⟨event, after, step, trivial, less⟩
  obtain ⟨more, after, execution, -, finished⟩ :=
    reached.descends (motive := fun _ _ => True) progress trivial
  exact ⟨more, after, execution, finished⟩

/-- Fully connected ranks that have been through `YMPI_Init` can start a program. -/
theorem Program.exists_initial (program : Program nprocs) (start : Stores UInt8)
    (small : nprocs ≤ qpnHashSize) : ∃ state, program.Initial start state := by
  obtain ⟨setup, cluster, rested, kept⟩ :=
    exists_rested (fun _ => QpTable.direct nprocs small)
      (fun rank => if rank = program.issuer then start.near else start.far) fun _ => program.rights
  have connected (rank peer : Fin nprocs) : (cluster rank).ctx.qps.qpList peer ≠ none := by
    rw [(kept rank).1]
    exact Option.some_ne_none _
  refine ⟨⟨cluster, [], program.accesses⟩, ⟨_, setup, rested⟩, rfl, rfl,
    ⟨connected _ _, connected _ _⟩, (kept program.target).2.2, ?_⟩
  rw [Program.memories, (kept program.issuer).2.1, (kept program.target).2.1, if_pos rfl,
    if_neg program.distinct.symm]

section Words

theorem rank0_ne_rank1 : (⟨0, Nat.two_pos⟩ : Fin 2) ≠ ⟨1, Nat.one_lt_two⟩ := by
  decide

end Words

end Ympi.OneSided
