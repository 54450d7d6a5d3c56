import Ympi.Clients.Settling

/-! # What the programs can do, the cluster can do

As long as the receive buffers suffice for the messages under way and the buffers held, a
cluster that has settled has delivered all messages, and then every step of a program over
channels is one that its process can take. So a cluster goes to the end whenever the programs
over channels do.
-/

namespace Ympi.Clients

open LinkedList Foundation Messaging

variable {nprocs : ℕ} {σ : Type}

/-- The messages under way to `rank` and the buffers that it holds. -/
def demand (network : Network (Fin nprocs) Message (Progress nprocs σ)) (rank : Fin nprocs) : ℕ :=
  (network.locals rank).held + ∑ source, (network.channels (source, rank)).length

/-- The receive buffers of every rank suffice. -/
def Fits (network : Network (Fin nprocs) Message (Progress nprocs σ)) : Prop :=
  ∀ rank, demand network rank ≤ prepostDepth

section Quiescence

variable {client : Client nprocs σ} {start : Fin nprocs → σ} {held : Fin nprocs → ℕ}
  {labels : List (Label nprocs)} {state : State nprocs σ}
  {network network' : Network (Fin nprocs) Message (Progress nprocs σ)} {rank : Fin nprocs}

/-- A completion belongs to one source at most. -/
theorem isFrom_inj {node : Node nprocs} {source other : Fin nprocs} {wc : Wc}
    (isFrom : node.isFrom source wc) (isFrom' : node.isFrom other wc) : source = other := by
  have same := Except.ok.inj (isFrom.2.symm.trans isFrom'.2)
  exact Fin.ext (Int.ofNat_inj.mp same)

/-- Every completion of a message belongs to one source. -/
theorem length_recvIds {node : Node nprocs} (wcs : List Wc)
    (knows : ∀ wc ∈ wcs, node.Knows wc) :
    (recvIds wcs).length = ∑ source, (wcs.filter fun wc => node.isFrom source wc).length := by
  induction wcs with
  | nil => exact (Finset.sum_eq_zero fun _ _ => rfl).symm
  | cons wc rest ih =>
      have others := ih fun wc member => knows wc (List.mem_cons_of_mem _ member)
      have split : ∑ source, ((wc :: rest).filter fun wc => node.isFrom source wc).length =
          ∑ source, (if node.isFrom source wc then 1 else 0) +
            ∑ source, (rest.filter fun wc => node.isFrom source wc).length := by
        rw [← Finset.sum_add_distrib]
        apply Finset.sum_congr rfl
        intro source _
        by_cases isFrom : node.isFrom source wc
        · simp [isFrom, Nat.add_comm]
        · simp [isFrom]
      rw [split, ← others]
      rcases knows wc List.mem_cons_self with ⟨peer, isSend⟩ | ⟨source, isFrom⟩
      · have other : wc.isRecv = false := by
          simp only [Wc.isSendTo, decide_eq_true_eq] at isSend
          simp [Wc.isRecv, isSend.1]
        simp [recvIds, other, Node.isFrom]
      · have only (candidate : Fin nprocs) : node.isFrom candidate wc ↔ candidate = source :=
          ⟨fun isFrom' => isFrom_inj isFrom' isFrom, fun same => same ▸ isFrom⟩
        simp [recvIds, isFrom.1, only, Nat.add_comm]

/-- A rank that waits is not giving buffers back. -/
theorem Waits.holding {node : Node nprocs} {program : σ}
    (waits : Waits client rank program node) : holding node = node.fetchedIds.length := by
  cases waits with
  | between located => exact holding_of_ne (by simp [located])
  | ready located => exact holding_of_ne (by simp [located])
  | blocked located => exact holding_of_ne (by simp [located])

/-- All requests of a client are messages. -/
theorem messagesOf_sendQueue (reached : (client.system start held).Reaches labels state)
    (source dest : Fin nprocs) : messagesOf ((state.cluster source).sendQueue dest) =
      ((state.cluster source).sendQueue dest).map Posted.message := by
  rw [messagesOf, List.filter_eq_self.mpr]
  intro posted member
  exact decide_eq_true ((reaches_sound reached source).sends dest posted member).1

/-- Nothing of an empty channel is at either end. -/
structure Clear (state : State nprocs σ) (source rank : Fin nprocs) : Prop where
  unsent : (state.cluster source).sendQueue rank = []
  unhandled : (state.cluster rank).unhandledFrom source = []
  pending : (state.cluster rank).pending source = []

theorem Tracks.clear (tracks : Tracks labels state network)
    (reached : (client.system start held).Reaches labels state) {source : Fin nprocs}
    (empty : network.channels (source, rank) = []) : Clear state source rank := by
  obtain ⟨waiting, holds, carried⟩ := tracks.carries reached source rank
  rw [empty, messagesOf_sendQueue reached] at carried
  obtain ⟨pending, others⟩ := List.append_eq_nil_iff.mp carried.symm
  obtain ⟨unhandled, unsent⟩ := List.append_eq_nil_iff.mp others
  rw [unhandled] at holds
  exact ⟨List.map_eq_nil_iff.mp unsent, List.forall₂_nil_right_iff.mp holds,
    List.map_eq_nil_iff.mp pending⟩

/-- What is under way to a rank, by where it is. -/
theorem demand_eq (reached : (client.system start held).Reaches labels state)
    (tracks : Tracks labels state network) (rank : Fin nprocs) :
    demand network rank = holding (state.cluster rank) +
      ∑ source, (((state.cluster rank).pending source).length +
        (((state.cluster rank).unhandledFrom source).length +
          ((state.cluster source).sendQueue rank).length)) := by
  rw [demand, tracks.held rank]
  congr 1
  apply Finset.sum_congr rfl
  intro source _
  obtain ⟨waiting, holds, carried⟩ := tracks.carries reached source rank
  rw [carried, messagesOf_sendQueue reached, List.length_append, List.length_append, List.length_map, List.length_map,
    holds.length_eq]

/-- The receive buffers that are not posted are held, pending, or behind a completion. -/
theorem stock_eq (reached : (client.system start held).Reaches labels state) (rank : Fin nprocs)
    (waits : Waits client rank (state.locals rank) (state.cluster rank)) :
    (state.cluster rank).srq.length + (holding (state.cluster rank) +
      ∑ source, (((state.cluster rank).pending source).length +
        ((state.cluster rank).unhandledFrom source).length)) = prepostDepth := by
  obtain ⟨history, ready, posted⟩ := reaches_rank reached rank
  have balance := Node.reaches_balance ready posted
  have known := length_recvIds _ (Node.reaches_knows ready)
  rw [waits.holding, Finset.sum_add_distrib]
  simp only [Node.unhandledFrom]
  omega

/-- When the buffers suffice, a quiet cluster has delivered all messages. -/
theorem Quiet.unsent (quiet : Quiet client state)
    (reached : (client.system start held).Reaches labels state)
    (tracks : Tracks labels state network) (fits : Fits network) (source dest : Fin nprocs) :
    (state.cluster source).sendQueue dest = [] := by
  by_contra unsent
  have empty := (quiet.delivered source dest).resolve_left unsent
  have stock := stock_eq reached dest (quiet.waits dest)
  have enough := fits dest
  rw [demand_eq reached tracks dest] at enough
  simp only [← Nat.add_assoc, Finset.sum_add_distrib] at enough stock
  have own := Finset.single_le_sum
    (f := fun source => ((state.cluster source).sendQueue dest).length)
    (fun _ _ => Nat.zero_le _) (Finset.mem_univ source)
  have positive := List.length_pos_of_ne_nil unsent
  rw [empty, List.length_nil] at stock
  omega

/-- A process without completions to handle has requests left only in its send queues. -/
theorem outstanding_eq_zero {node : Node nprocs} (unsent : ∀ peer, node.sendQueue peer = [])
    (completed : ∀ peer, node.executed peer = []) (unhandled : node.unhandled = [])
    (peer : Fin nprocs) : node.outstanding peer = 0 := by
  rw [Node.outstanding, unsent peer, completed peer, unhandled]
  rfl

/-- In a quiet cluster the requests of a rank that are delivered are complete. -/
theorem Quiet.underWay_eq_nil (quiet : Quiet client state)
    (unsent : ∀ dest, (state.cluster rank).sendQueue dest = []) (peer : Fin nprocs) :
    underWay (state.cluster rank) peer = [] := by
  rw [underWay, quiet.completed, unsent]
  rfl

/-- The process is between its calls, or in `YMPI_Zrecv` with a message to hand out or without one
in the node. -/
inductive Position (client : Client nprocs σ) (rank : Fin nprocs) (state : State nprocs σ) :
    Prop where
  | between {ret : Int} : (state.cluster rank).pc = .idle ret →
      (∀ source next, client.command rank (state.locals rank) ≠ .zrecv source next) →
        Position client rank state
  | ready {source : Fin nprocs} {next : Message → σ} :
      client.command rank (state.locals rank) = .zrecv source next →
      (state.cluster rank).pc = .head (.recv source) →
      (state.cluster rank).pending source ≠ [] → Position client rank state
  | lacking {source : Fin nprocs} {next : Message → σ} :
      client.command rank (state.locals rank) = .zrecv source next →
      (state.cluster rank).pending source = [] →
      (state.cluster rank).unhandledFrom source = [] → Position client rank state

/-- Where the process of a rank is in a quiet cluster when all its requests are delivered. -/
theorem Quiet.position (quiet : Quiet client state)
    (reached : (client.system start held).Reaches labels state) (rank : Fin nprocs)
    (unsent : ∀ dest, (state.cluster rank).sendQueue dest = []) : Position client rank state := by
  have sound := reaches_sound reached rank
  obtain ⟨history, ready, -⟩ := reaches_rank reached rank
  have tested := Node.reaches_tested ready
  cases quiet.waits rank with
  | between idle other => exact .between idle other
  | @ready source located some =>
      obtain ⟨next, named⟩ := sound.awaits (Or.inl located)
      exact .ready named located some
  | @blocked loop located empty =>
      have unhandled : (state.cluster rank).unhandled = [] := by
        rw [Node.unhandled, located, empty]
        rfl
      have settled := outstanding_eq_zero unsent (quiet.completed rank) unhandled
      cases loop with
      | throttle dest =>
          have waited := tested.throttle located
          rw [Node.reaches_qpPending ready dest, settled dest] at waited
          cases waited
      | flush =>
          have waited := tested.flush located
          have total := Node.reaches_pendingTotal ready
          have counted : ∑ peer, (state.cluster rank).ctx.qpPendingSendWr peer = 0 := by
            apply Finset.sum_eq_zero
            intro peer _
            rw [Node.reaches_qpPending ready peer, settled peer]
            rfl
          omega
      | recv source =>
          obtain ⟨next, named⟩ := sound.awaits (Or.inr located)
          refine .lacking named (tested.recv located) ?_
          rw [Node.unhandledFrom, unhandled]
          rfl

/-- A channel without messages in its receiver has what its sender has still to deliver. -/
theorem channel_eq_nil {source : Fin nprocs}
    (reached : (client.system start held).Reaches labels state)
    (tracks : Tracks labels state network) (pending : (state.cluster rank).pending source = [])
    (unhandled : (state.cluster rank).unhandledFrom source = [])
    (unsent : (state.cluster source).sendQueue rank = []) :
    network.channels (source, rank) = [] := by
  obtain ⟨waiting, holds, carried⟩ := tracks.carries reached source rank
  rw [unhandled] at holds
  cases holds
  rw [carried, pending, unsent]
  rfl

end Quiescence

section Calls

variable {client : Client nprocs σ} {start : Fin nprocs → σ} {held : Fin nprocs → ℕ}
  {labels : List (Label nprocs)} {state : State nprocs σ}
  {network network' : Network (Fin nprocs) Message (Progress nprocs σ)} {rank : Fin nprocs}
  {ret : Int}

/-- A process between its calls can enter `YMPI_Zflush`. -/
theorem realize_zflush {next : σ} (tracks : Tracks labels state network)
    (idle : (state.cluster rank).pc = .idle ret)
    (named : client.command rank (state.locals rank) = .zflush next) :
    ∃ label after, (client.careful start held).Step state label after ∧
      Tracks (labels ++ [label]) after
        (network.advance rank { network.locals rank with program := next }) := by
  have acts := Cluster.Step.act rfl (Node.Step.zflush idle)
  have follows : client.Follows rank (state.locals rank) (state.cluster rank) .zflush := by
    refine ⟨?_, by simp, by simp, by simp⟩
    intro _ _
    rw [named]
    exact Or.inl .zflush
  refine ⟨_, _, ⟨.process rfl follows acts, trivial⟩, tracks.internal _ acts ?_ (fun _ => rfl)
    (fun _ => rfl) rfl⟩
  have kept : holding (state.cluster rank) = (state.cluster rank).fetchedIds.length :=
    holding_of_ne (by simp [idle])
  simp only [Client.advance, named, tracks.held rank, kept, Function.update_self]
  rw [holding_of_ne (by simp)]

/-- A process between its calls can enter `YMPI_Return`. -/
theorem realize_giveBack {next : σ} (tracks : Tracks labels state network)
    (idle : (state.cluster rank).pc = .idle ret)
    (named : client.command rank (state.locals rank) = .giveBack next) :
    ∃ label after, (client.careful start held).Step state label after ∧
      Tracks (labels ++ [label]) after
        (network.advance rank { network.locals rank with program := next, held := 0 }) := by
  have acts := Cluster.Step.act rfl (Node.Step.giveBack idle)
  have follows : client.Follows rank (state.locals rank) (state.cluster rank) .giveBack := by
    refine ⟨?_, by simp, by simp, by simp⟩
    intro _ _
    rw [named]
    exact Or.inl .giveBack
  refine ⟨_, _, ⟨.process rfl follows acts, trivial⟩, tracks.internal _ acts ?_ (fun _ => rfl)
    (fun _ => rfl) rfl⟩
  simp only [Client.advance, named, Function.update_self]
  rw [holding_of_returning rfl]

/-- A process between its calls whose requests are complete can put its data in place and send
it. -/
theorem realize_zsend {buffer : RdmaBuffer} {offset : ℕ} {payload : List UInt8}
    {dest : Fin nprocs} {next : σ} (reached : (client.system start held).Reaches labels state)
    (tracks : Tracks labels state network) (idle : (state.cluster rank).pc = .idle ret)
    (complete : ∀ peer, underWay (state.cluster rank) peer = [])
    (named : client.command rank (state.locals rank) = .zsend buffer offset payload dest next) :
    ∃ more after, (client.careful start held).Execution state more after ∧
      Tracks (labels ++ more) after (network.put rank dest [⟨payload, payload.length⟩]
        { network.locals rank with program := next }) := by
  let call : PostCall nprocs := .zsend buffer offset payload.length dest
  let mem := writeBlock (state.cluster rank).mem (sizeT (buffer.buf + offset)) payload
  let stored : Node nprocs := { state.cluster rank with mem := mem }
  let mid : State nprocs σ := {
    cluster := Function.update state.cluster rank stored
    locals := state.locals }
  have there : mid.cluster rank = stored := Function.update_self ..
  -- The process puts the data in place.
  have stores := Cluster.Step.act rfl (Node.Step.store mem idle)
  have writes : client.Follows rank (state.locals rank) (state.cluster rank) (.store mem) :=
    ⟨fun _ _ => Or.inr ⟨mem, rfl⟩, by simp, by simp, by simp⟩
  have first : client.Step state (.act rank (.store mem)) mid := .unseen rfl rfl writes stores
  have placed : Tracks (labels ++ [.act rank (.store mem)]) mid network := by
    apply tracks.unseen stores rfl
    rw [Function.update_self]
    rfl
  -- The post is accepted, and the request carries what has been put in place.
  have performed : call.perform (state.cluster rank).ctx .accepted = _ :=
    PostCall.perform_ok (client.inBounds named)
      (reaches_linked reached (Or.inl (client.peers_zsend named))).here
  have data : readBlock stored.mem call.range.1 call.range.2 = payload :=
    readBlock_writeBlock_self _ _ payload
  have posts : Node.Step stored _ _ := .postAccepted idle performed
  rw [data] at posts
  have follows : client.Follows rank (mid.locals rank) (mid.cluster rank)
      (.post call .accepted payload) := by
    refine ⟨?_, ?_, by simp, by simp⟩
    · intro _ _
      rw [named]
      exact Or.inl (.zsend .accepted)
    · rintro _ _ _ ⟨⟩ refused
      exact absurd rfl refused
  have second : client.Step mid _ _ := .process rfl follows (Cluster.act_update rfl posts)
  have leaves : LeavesSent state (.act rank (.store mem)) mid := by
    intro peer posted member
    rw [complete peer] at member
    cases member
  refine ⟨[_, _], _, .cons ⟨first, leaves⟩ (.single ⟨second, trivial⟩), ?_⟩
  have sent := placed.sends (Cluster.act_update rfl posts) named ?_
  · rwa [List.append_assoc] at sent
  · rw [there, Function.update_self, holding_of_ne, holding_of_ne (by simp [stored, idle])]
    · rfl
    · simp only
      split <;> simp

/-- `YMPI_Zrecv` can return with a pending message. -/
theorem realize_zrecv {source : Fin nprocs} {next : Message → σ} {message : Message}
    {rest : List Message} (reached : (client.system start held).Reaches labels state)
    (tracks : Tracks labels state network)
    (atHead : (state.cluster rank).pc = .head (.recv source))
    (some : (state.cluster rank).pending source ≠ [])
    (named : client.command rank (state.locals rank) = .zrecv source next)
    (oldest : network.channels (source, rank) = message :: rest) :
    ∃ label after, (client.careful start held).Step state label after ∧
      Tracks (labels ++ [label]) after
        (network.take rank source {
          program := next message
          held := (network.locals rank).held + 1
          taken := (network.locals rank).taken ++ [(source, message)] }) := by
  obtain ⟨history, ready, posted⟩ := reaches_rank reached rank
  obtain ⟨bufId, others, stored⟩ := List.exists_cons_of_ne_nil some
  have given : bufId ≠ -1 := by
    have nonneg := (Node.reaches_proper ready).pending source bufId
      (by rw [stored]; exact List.mem_cons_self)
    omega
  obtain ⟨ctx, result, performed, -⟩ :=
    Context.recvHead_cons given stored (Node.fetched_room ready posted some)
  have step := Node.Step.received atHead performed
  have acts := Cluster.Step.act rfl step
  have follows : client.Follows rank (state.locals rank) (state.cluster rank)
      (.received source result (readBlock ctx.rxWin.buf result.ptr result.len)) :=
    .of_busy (by simp [atHead]) (by simp) (by simp) (by simp)
  have moves := Client.Step.process rfl follows acts
  obtain ⟨rest', first⟩ := tracks.oldest (reached.step moves)
  cases oldest.symm.trans first
  refine ⟨_, _, ⟨moves, trivial⟩, tracks.takes acts named oldest ?_⟩
  rw [Function.update_self, holding_outside step (Node.reaches_proper ready) (by simp [atHead])
    (by simp)]
  rfl

end Calls

section Runs

variable {client : Client nprocs σ} {start : Fin nprocs → σ} {held : Fin nprocs → ℕ}
  {labels : List (Label nprocs)} {state : State nprocs σ}
  {network network' : Network (Fin nprocs) Message (Progress nprocs σ)} {rank : Fin nprocs}

/-- **Realization of a call.** A process that waits can make the next call of its program when
the program can make it over channels, and a message that it receives has arrived. -/
theorem Position.realizes (position : Position client rank state)
    (reached : (client.system start held).Reaches labels state)
    (tracks : Tracks labels state network) (step : client.program.Step network rank network')
    (arrives : ∀ source next, client.command rank (state.locals rank) = .zrecv source next →
      (state.cluster rank).pending source = [] → (state.cluster rank).unhandledFrom source = [] →
        network.channels (source, rank) = [])
    (complete : ∀ peer, underWay (state.cluster rank) peer = []) :
    ∃ more after, (client.careful start held).Execution state more after ∧
      Tracks (labels ++ more) after network' := by
  have located := tracks.program rank
  have receives {source : Fin nprocs} {next : Message → σ}
      (named : client.command rank (state.locals rank) = .zrecv source next) :
      client.program rank (network.locals rank) = .receive source fun message => {
        program := next message
        held := (network.locals rank).held + 1
        taken := (network.locals rank).taken ++ [(source, message)] } := by
    rw [Client.program, located, named]
  cases position with
  | between idle other =>
      cases step with
      | internal command =>
          unfold Client.program at command
          split at command <;> cases command
          next named =>
            rw [located] at named
            obtain ⟨label, after, moves, tracks'⟩ := realize_zflush tracks idle named
            exact ⟨_, _, .single moves, tracks'⟩
          next named =>
            rw [located] at named
            obtain ⟨label, after, moves, tracks'⟩ := realize_giveBack tracks idle named
            exact ⟨_, _, .single moves, tracks'⟩
      | send command =>
          unfold Client.program at command
          split at command <;> cases command
          next named =>
            rw [located] at named
            exact realize_zsend reached tracks idle complete named
      | receive command waiting =>
          unfold Client.program at command
          split at command <;> cases command
          next named =>
            rw [located] at named
            exact absurd named (other _ _)
  | ready named atHead some =>
      cases step with
      | internal command => cases (receives named).symm.trans command
      | send command => cases (receives named).symm.trans command
      | receive command waiting =>
          cases (receives named).symm.trans command
          obtain ⟨label, after, moves, tracks'⟩ :=
            realize_zrecv reached tracks atHead some named waiting
          exact ⟨_, _, .single moves, tracks'⟩
  | lacking named pending unhandled =>
      cases step with
      | internal command => cases (receives named).symm.trans command
      | send command => cases (receives named).symm.trans command
      | receive command waiting =>
          cases (receives named).symm.trans command
          cases (arrives _ _ named pending unhandled).symm.trans waiting

/-- **Realization of a step.** What a program can do over channels its process can come to do,
as long as the receive buffers suffice. -/
theorem realizes (reached : (client.system start held).Reaches labels state)
    (tracks : Tracks labels state network) (fits : Fits network)
    (step : client.program.Step network rank network') :
    ∃ more after, (client.careful start held).Execution state more after ∧
      Tracks (labels ++ more) after network' := by
  obtain ⟨quieting, quiet, settling, tracks', calm⟩ := reaches_quiet reached tracks
  have reached' := reached.append settling.of_restrict
  have unsent := calm.unsent reached' tracks' fits
  obtain ⟨more, after, execution, tracks''⟩ :=
    (calm.position reached' rank (unsent rank)).realizes reached' tracks' step
      (fun source _ _ pending unhandled =>
        channel_eq_nil reached' tracks' pending unhandled (unsent source rank))
      (calm.underWay_eq_nil (unsent rank))
  rw [List.append_assoc] at tracks''
  exact ⟨quieting ++ more, after, settling.append execution, tracks''⟩

/-- **Realization of a run** through networks for which the receive buffers suffice. -/
theorem realizes_run {parties : List (Fin nprocs)}
    (reached : (client.system start held).Reaches labels state)
    (tracks : Tracks labels state network)
    (execution : (client.program.system.restrict fun before _ _ => Fits before).Execution
      network parties network') :
    ∃ more after, (client.careful start held).Execution state more after ∧
      Tracks (labels ++ more) after network' := by
  induction execution with
  | refl => exact ⟨[], state, .refl state, by rwa [List.append_nil]⟩
  | snoc _ step ih =>
      obtain ⟨first, mid, begun, tracks'⟩ := ih
      obtain ⟨second, after, further, tracks''⟩ :=
        realizes (reached.append begun.of_restrict) tracks' step.2 step.1
      rw [List.append_assoc] at tracks''
      exact ⟨first ++ second, after, begun.append further, tracks''⟩

/-- A program at its end makes no further call. -/
theorem command_of_stop {progress : Progress nprocs σ}
    (stopped : client.program rank progress = .stop) :
    client.command rank progress.program = .stop := by
  unfold Client.program at stopped
  split at stopped
  next named => exact named
  all_goals cases stopped

/-- In a quiet cluster the ranks at the ends of their programs have returned. -/
theorem Quiet.finished (quiet : Quiet client state)
    (reached : (client.system start held).Reaches labels state)
    (tracks : Tracks labels state network)
    (unsent : ∀ source dest, (state.cluster source).sendQueue dest = [])
    (stopped : client.program.Stopped network) : client.Finished state := by
  have ended (rank : Fin nprocs) : client.command rank (state.locals rank) = .stop := by
    rw [← tracks.program rank]
    exact command_of_stop (stopped rank)
  refine ⟨ended, ?_⟩
  intro rank
  cases quiet.position reached rank (unsent rank) with
  | between idle => exact ⟨_, idle⟩
  | ready named => cases (ended rank).symm.trans named
  | lacking named => cases (ended rank).symm.trans named

/-- The receive buffers suffice for every network that the programs can reach. -/
def Provides (client : Client nprocs σ) (start : Fin nprocs → σ) (held : Fin nprocs → ℕ) : Prop :=
  ∀ parties network, client.program.system.Execution (Client.begun start held) parties network →
    Fits network

/-- **The end stays in reach.** When the receive buffers suffice for whatever the programs do,
and the programs can come to their ends over channels, then whatever the processes, their HCAs
and the network have done so far, all ranks can still come to the ends of their programs, and leave
the bytes of their requests alone meanwhile. -/
theorem can_finish (client : Client nprocs σ) (start : Fin nprocs → σ) (held : Fin nprocs → ℕ)
    (provides : Provides client start held)
    (ends : ∃ parties final, client.program.system.Execution (Client.begun start held) parties
      final ∧ client.program.Stopped final)
    {labels : List (Label nprocs)} {state : State nprocs σ}
    (reached : (client.system start held).Reaches labels state) :
    ∃ more after, (client.careful start held).Execution state more after ∧
      client.Finished after := by
  obtain ⟨parties, final, whole, stopped⟩ := ends
  obtain ⟨front, network, begun, tracks⟩ := reaches_tracks reached
  obtain ⟨back, -, rest⟩ :=
    (ChannelProgram.conflictFree client.program).finishes whole stopped.final begun
  have fitting := rest.restrict_reachable fun more state further =>
    provides _ _ (begun.append further)
  obtain ⟨more, mid, moves, tracks'⟩ := realizes_run reached tracks fitting
  have reached' := reached.append moves.of_restrict
  obtain ⟨quieting, after, settling, tracks'', calm⟩ := reaches_quiet reached' tracks'
  refine ⟨more ++ quieting, after, moves.append settling, ?_⟩
  have reached'' := reached'.append settling.of_restrict
  exact calm.finished reached'' tracks''
    (calm.unsent reached'' tracks'' (provides _ _ whole)) stopped

end Runs

end Ympi.Clients
