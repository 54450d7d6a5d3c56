import Ympi.Clients.Soundness
import Ympi.Messaging.HeldBuffers

/-! # The messaging library as a set of channels

To its clients the library is one channel for each pair of ranks, first in, first out and
without loss: every step of a process is a step of its program over such channels or none at
all, and whatever the HCAs and the network do is none. What is in a channel is spread over
a send queue, the completions of arrived messages, and the pending buffers.
-/

namespace Ympi.Clients

open LinkedList Foundation Messaging

variable {nprocs : ℕ} {σ : Type}

/-- How far a rank has come: where its program is, the number of buffers that it has not given
back, and the messages that it has taken, each with its source. -/
@[ext]
structure Progress (nprocs : ℕ) (σ : Type) where
  program : σ
  held : ℕ
  taken : List (Fin nprocs × Message)

namespace Client

/-- The program of each rank over channels. -/
def program (client : Client nprocs σ) :
    ChannelProgram (Fin nprocs) Message (Progress nprocs σ) := fun rank progress =>
  match client.command rank progress.program with
  | .stop => .stop
  | .zsend _ _ payload dest next =>
      .send dest ⟨payload, payload.length⟩ { progress with program := next }
  | .zflush next => .internal { progress with program := next }
  | .zrecv source next => .receive source fun message => {
      program := next message
      held := progress.held + 1
      taken := progress.taken ++ [(source, message)] }
  | .giveBack next => .internal { progress with program := next, held := 0 }

/-- All ranks at the start of their programs. -/
def begun (start : Fin nprocs → σ) (held : Fin nprocs → ℕ) :
    Network (Fin nprocs) Message (Progress nprocs σ) where
  locals rank := { program := start rank, held := held rank, taken := [] }
  channels _ := []

end Client

/-- The message that `YMPI_Zrecv` returned, with its source. -/
def takenBy : Action nprocs → List (Fin nprocs × Message)
  | .received source result payload => [(source, ⟨payload, result.len⟩)]
  | _ => []

/-- The process enters a call that has its effect at once, or `YMPI_Zrecv` returns. -/
def visible : Action nprocs → Bool
  | .post .. => true
  | .zflush => true
  | .received .. => true
  | .giveBack => true
  | _ => false

/-- The buffers that the process has not begun to give back. -/
def holding (node : Node nprocs) : ℕ :=
  match node.pc with
  | .returning => 0
  | _ => node.fetchedIds.length

section Visible

variable {action : Action nprocs}

theorem visible_of_hardware (hardware : action.isProcess = false) : visible action = false := by
  cases action with
  | execute | complete | arrive | land => rfl
  | _ => cases hardware

theorem sentTo_of_invisible (invisible : visible action = false) (dest : Fin nprocs) :
    action.sentTo dest = [] := by
  cases action with
  | post => cases invisible
  | _ => rfl

theorem receivedFrom_of_invisible (invisible : visible action = false) (source : Fin nprocs) :
    action.receivedFrom source = [] := by
  cases action with
  | received => cases invisible
  | _ => rfl

theorem takenBy_of_invisible (invisible : visible action = false) : takenBy action = [] := by
  cases action with
  | received => cases invisible
  | _ => rfl

theorem advance_of_invisible (client : Client nprocs σ) (rank : Fin nprocs) (program : σ)
    (invisible : visible action = false) : client.advance rank program action = program := by
  unfold Client.advance
  split
  next => cases invisible
  next => cases invisible
  next => cases invisible
  next => cases invisible
  next => rfl

end Visible

section Holding

variable {node node' : Node nprocs} {action : Action nprocs}

theorem holding_of_ne (outside : node.pc ≠ .returning) : holding node = node.fetchedIds.length := by
  unfold holding
  split
  next inside => exact absurd inside outside
  next => rfl

theorem holding_of_returning (inside : node.pc = .returning) : holding node = 0 := by
  rw [holding, inside]

/-- A step of the process outside `YMPI_Return`. -/
theorem holding_outside (step : Node.Step node action node') (proper : node.Proper)
    (before : node.pc ≠ .returning) (after : node'.pc ≠ .returning) :
    holding node' = holding node + action.fetched.length := by
  have moved := step.fetched_ledger proper
  rw [step.unfetched_eq_nil before, List.nil_append] at moved
  rw [holding_of_ne after, holding_of_ne before, ← moved, List.length_append]

/-- A step without an effect for the program leaves the process its buffers. -/
theorem holding_invisible (step : Node.Step node action node') (proper : node.Proper)
    (invisible : visible action = false) (posts : ∀ wr, action ≠ .repost wr false)
    (running : ∀ halt, action ≠ .halt halt) : holding node' = holding node := by
  by_cases inside : node.pc = .returning
  · rw [holding_of_returning inside]
    cases step with
    | repost | execute | complete | arrive | land => exact holding_of_returning inside
    | returned _ performed =>
        obtain ⟨empty, rfl⟩ := Context.returnHead_empty performed proper.minusOne_fetched
        rw [holding_of_ne (by simp)]
        exact congrArg List.length empty
    | repostFailed => exact absurd rfl (posts _)
    | halt => exact absurd rfl (running _)
    | postAccepted located | postRefused located | zflush located | zrecv _ located
    | giveBack located | throttleTest located | flushTest located | flushEnd located
    | recvTest located | received located | poll located | pollError located | handle located
    | store _ located | register _ located => cases inside.symm.trans located
  · have after : node'.pc ≠ .returning := by
      intro returning
      rcases step.returning_origin returning with earlier | rfl
      · exact inside earlier
      · cases invisible
    rw [holding_outside step proper inside after]
    cases action with
    | received => cases invisible
    | _ => rfl

end Holding

/-- The effect that a step of a process has for its program. -/
inductive Client.Effect (client : Client nprocs σ) (rank : Fin nprocs) (program : σ)
    (node node' : Node nprocs) : Action nprocs → Prop where
  | sends {buffer : RdmaBuffer} {offset : ℕ} {payload : List UInt8} {dest : Fin nprocs}
      {next : σ} :
      client.command rank program = .zsend buffer offset payload dest next →
      holding node' = holding node →
        Effect client rank program node node'
          (.post (.zsend buffer offset payload.length dest) .accepted payload)
  | flushes {next : σ} :
      client.command rank program = .zflush next → holding node' = holding node →
        Effect client rank program node node' .zflush
  | takes {source : Fin nprocs} {next : Message → σ} {result : Received} {payload : List UInt8} :
      client.command rank program = .zrecv source next → holding node' = holding node + 1 →
        Effect client rank program node node' (.received source result payload)
  | givesBack {next : σ} :
      client.command rank program = .giveBack next → holding node' = 0 →
        Effect client rank program node node' .giveBack
  | none {action : Action nprocs} :
      visible action = false → holding node' = holding node →
        Effect client rank program node node' action

section Effects

variable {client : Client nprocs σ} {rank : Fin nprocs} {node node' : Node nprocs} {program : σ}
  {action : Action nprocs} {history : List (Action nprocs)}

/-- A rank that enters a call enters the one that its program is at. -/
theorem Sound.begins {ret : Int} (follows : client.Follows rank program node action)
    (idle : node.pc = .idle ret) (stores : ∀ mem, action ≠ .store mem) :
    (client.command rank program).Begins node action :=
  (follows.enters ret idle).resolve_right fun ⟨mem, same⟩ => stores mem same

/-- A rank in `YMPI_Zrecv` is at a call of it in its program. -/
theorem Sound.awaits {source : Fin nprocs} (sound : Sound client rank node program)
    (inside : node.pc = .head (.recv source) ∨ node.pc = .polling (.recv source)) :
    ∃ next, client.command rank program = .zrecv source next := by
  rcases sound.serves with ⟨ret, idle⟩ | ⟨call, serves, awaited⟩
  · rcases inside with located | located <;> cases located.symm.trans idle
  · have own : call.loop = some (.recv source) := by
      rcases inside with located | located
      · rw [located] at serves
        cases serves with
        | head same => exact same
      · rw [located] at serves
        cases serves with
        | polling same => exact same
    apply awaited source
    cases call with
    | zrecv =>
        cases own
        rfl
    | _ => cases own

/-- No post of a program is refused. -/
theorem Sound.not_refused {call : PostCall nprocs} {outcome : PostOutcome} {data : List UInt8}
    {ret : Int} (sound : Sound client rank node program)
    (follows : client.Follows rank program node (.post call outcome data))
    (idle : node.pc = .idle ret) : outcome = .accepted := by
  by_contra refused
  obtain ⟨buffer, offset, payload, dest, next, named, rfl, -⟩ :=
    (Sound.begins follows idle (by simp)).eq_zsend
  have full := follows.accepts _ _ _ rfl refused
  have room := sound.send_room idle named dest
  simp only [PostCall.dest] at full
  simp only [if_true] at room
  omega

/-- **The effect of a step** of the process. -/
theorem Sound.effect (sound : Sound client rank node program)
    (reached : (Node.system nprocs).Reaches history node)
    (posted : ∀ wr, Action.repost wr false ∉ history)
    (connected : ∀ peer, client.peers rank program peer → node.ctx.qps.qpList peer ≠ none)
    (follows : client.Follows rank program node action) (step : Node.Step node action node') :
    client.Effect rank program node node' action := by
  have proper := Node.reaches_proper reached
  have outside := holding_outside step proper
  have running (halt : Halt) : action ≠ .halt halt := by
    rintro rfl
    exact sound.not_halt reached posted connected follows step
  have reposts (wr : RecvWr) : action ≠ .repost wr false := by
    intro same
    have room := step.srq_room same reached rank
    have full := follows.posts wr same
    omega
  have kept (invisible : visible action = false) := holding_invisible step proper invisible
    reposts running
  cases step with
  | @postAccepted ret call ctx pc idle performed =>
      obtain ⟨buffer, offset, payload, dest, next, named, rfl, same⟩ :=
        (Sound.begins follows idle (by simp)).eq_zsend
      rw [same]
      apply Client.Effect.sends named
      apply outside
      · simp [idle]
      · rw [(PostCall.perform_accepted performed).2.2]
        split <;> simp
  | postRefused idle refused => exact absurd (sound.not_refused follows idle) refused
  | zflush idle =>
      have begins := Sound.begins follows idle (by simp)
      generalize named : client.command rank program = command at begins
      cases begins with
      | zflush => exact .flushes named (outside (by simp [idle]) (by simp))
  | giveBack idle =>
      have begins := Sound.begins follows idle (by simp)
      generalize named : client.command rank program = command at begins
      cases begins with
      | giveBack => exact .givesBack named (holding_of_returning rfl)
  | received atHead =>
      obtain ⟨next, named⟩ := sound.awaits (Or.inl atHead)
      exact .takes named (outside (by simp [atHead]) (by simp))
  | _ => exact .none rfl (kept rfl)

end Effects

/-- The messages from `source` to `dest` are in the pending buffers of `dest`, behind its
unhandled completions, and in the send queue of `source`; in this order. -/
def Carries (cluster : Cluster nprocs) (source dest : Fin nprocs) (messages : List Message) :
    Prop :=
  ∃ waiting, List.Forall₂ (cluster dest).Holds ((cluster dest).unhandledFrom source) waiting ∧
    messages = ((cluster dest).pending source).map (cluster dest).messageIn ++
      (waiting ++ messagesOf ((cluster source).sendQueue dest))

section Channels

variable {client : Client nprocs σ} {start : Fin nprocs → σ} {held : Fin nprocs → ℕ}
  {labels : List (Label nprocs)} {state : State nprocs σ}

theorem nodeHistory_snoc (rank : Fin nprocs) (labels : List (Label nprocs)) (label : Label nprocs) :
    nodeHistory rank (labels ++ [label]) = nodeHistory rank labels ++ label.actionsOf rank := by
  rw [nodeHistory, List.flatMap_append, List.flatMap_singleton]
  rfl

/-- At rest all messages that were sent have been received. -/
theorem Rested.sent_received {setup : List (Label nprocs)} {cluster : Cluster nprocs}
    (rested : Rested held setup cluster) (source dest : Fin nprocs) :
    (nodeHistory source setup).flatMap (Action.sentTo dest) =
      (nodeHistory dest setup).flatMap (Action.receivedFrom source) := by
  have sent := Node.reaches_sent (reaches_node rested.reached source) (rested.fits source) dest
  obtain ⟨waiting, delivers⟩ := Node.reaches_delivers (reaches_node rested.reached dest) source
  obtain ⟨ret, idle⟩ := rested.idle dest
  have unposted : (cluster source).sendQueue dest = [] := by
    have none := rested.settled source dest
    rw [Node.outstanding] at none
    exact List.eq_nil_of_length_eq_zero (by omega)
  have unhandled : (cluster dest).unhandledFrom source = [] := by
    rw [Node.unhandledFrom, Node.unhandled, idle, rested.unpolled dest]
    rfl
  have waits := delivers.waits
  rw [unhandled] at waits
  cases waits
  rw [sent, Cluster.delivered_arrived rested.reached, delivers.order, rested.received dest source,
    unposted]
  simp [messagesOf]

/-- What a rank has sent to another since the start has been received, or is under way. -/
theorem reaches_carries (reached : (client.system start held).Reaches labels state)
    (source dest : Fin nprocs) : ∃ messages, Carries state.cluster source dest messages ∧
      (nodeHistory source labels).flatMap (Action.sentTo dest) =
        (nodeHistory dest labels).flatMap (Action.receivedFrom source) ++ messages := by
  obtain ⟨setup, begun, rested, execution⟩ := reaches_rested reached
  have whole := rested.reached.append execution
  have fits : ∀ action ∈ nodeHistory source (setup ++ labels), action.LengthFits := by
    intro action member
    rw [nodeHistory, List.flatMap_append] at member
    rcases List.mem_append.mp member with early | late
    · exact rested.fits source action early
    · exact (reaches_lawful reached source action late).fits
  have sent := Node.reaches_sent (reaches_node whole source) fits dest
  obtain ⟨waiting, delivers⟩ := Node.reaches_delivers (reaches_node whole dest) source
  refine ⟨_, ⟨waiting, delivers.waits, rfl⟩, ?_⟩
  rw [Cluster.delivered_arrived whole, delivers.order] at sent
  simp only [nodeHistory, List.flatMap_append, List.append_assoc] at sent
  have before := rested.sent_received source dest
  simp only [nodeHistory] at before ⊢
  rw [before] at sent
  exact List.append_cancel_left sent

/-- The network that a reached state stands for. -/
structure Tracks (labels : List (Label nprocs)) (state : State nprocs σ)
    (network : Network (Fin nprocs) Message (Progress nprocs σ)) : Prop where
  program : ∀ rank, (network.locals rank).program = state.locals rank
  held : ∀ rank, (network.locals rank).held = holding (state.cluster rank)
  taken : ∀ rank, (network.locals rank).taken = (nodeHistory rank labels).flatMap takenBy
  sent : ∀ source dest, (nodeHistory source labels).flatMap (Action.sentTo dest) =
    (nodeHistory dest labels).flatMap (Action.receivedFrom source) ++
      network.channels (source, dest)

/-- A step of a process adds to its own history. -/
theorem flatMap_act {α : Type} (observe : Action nprocs → List α) (labels : List (Label nprocs))
    (rank other : Fin nprocs) (action : Action nprocs) :
    (nodeHistory other (labels ++ [.act rank action])).flatMap observe =
      (nodeHistory other labels).flatMap observe ++
        if rank = other then observe action else [] := by
  rw [nodeHistory_snoc, List.flatMap_append, Label.actionsOf]
  split <;> simp

variable {network network' : Network (Fin nprocs) Message (Progress nprocs σ)}
  {rank : Fin nprocs} {action : Action nprocs} {cluster : Cluster nprocs}

/-- A step of a process and the step of its program. -/
theorem Tracks.process {program : σ} (tracks : Tracks labels state network)
    (acts : Cluster.Step state.cluster (.act rank action) cluster)
    (own : network'.locals rank = {
      program := program
      held := holding (cluster rank)
      taken := (network.locals rank).taken ++ takenBy action })
    (others : ∀ other, other ≠ rank → network'.locals other = network.locals other)
    (moved : ∀ source dest,
      network.channels (source, dest) ++ (if rank = source then action.sentTo dest else []) =
        (if rank = dest then action.receivedFrom source else []) ++
          network'.channels (source, dest)) :
    Tracks (labels ++ [.act rank action]) {
      cluster := cluster
      locals := Function.update state.locals rank program } network' := by
  have quiet (other : Fin nprocs) (apart : other ≠ rank) :
      state.cluster other = cluster other := by
    have still := acts.execution other
    rw [Label.actionsOf, if_neg (Ne.symm apart)] at still
    exact still.eq_of_nil
  refine ⟨?_, ?_, ?_, ?_⟩
  · intro other
    by_cases same : other = rank
    · subst same
      simp only [own, Function.update_self]
    · simp only [others other same, Function.update_of_ne same]
      exact tracks.program other
  · intro other
    by_cases same : other = rank
    · subst same
      rw [own]
    · rw [others other same, tracks.held other, quiet other same]
  · intro other
    rw [flatMap_act, ← tracks.taken other]
    by_cases same : other = rank
    · subst same
      rw [own, if_pos rfl]
    · rw [others other same, if_neg (Ne.symm same), List.append_nil]
  · intro source dest
    rw [flatMap_act, flatMap_act, tracks.sent source dest, List.append_assoc, List.append_assoc,
      moved source dest]

/-- What the HCAs and the network do is no step of a program. -/
theorem Tracks.hardware {label : Label nprocs} (tracks : Tracks labels state network)
    (reached : (client.system start held).Reaches labels state) (faultless : Faultless label)
    (acts : Cluster.Step state.cluster label cluster) :
    Tracks (labels ++ [label]) { state with cluster := cluster } network := by
  have unseen {α : Type} (observe : Action nprocs → List α)
      (none : ∀ action, visible action = false → observe action = []) (other : Fin nprocs) :
      (nodeHistory other (labels ++ [label])).flatMap observe =
        (nodeHistory other labels).flatMap observe := by
    have last : (label.actionsOf other).flatMap observe = [] := by
      rw [List.flatMap_eq_nil_iff]
      intro action member
      exact none action (visible_of_hardware (faultless.isProcess member))
    rw [nodeHistory_snoc, List.flatMap_append, last, List.append_nil]
  refine ⟨tracks.program, ?_, ?_, ?_⟩
  · intro other
    rw [tracks.held other]
    obtain ⟨history, ready, -⟩ := reaches_rank reached other
    have kept := (acts.execution other).invariant (motive := fun node =>
      node.Proper ∧ holding node = holding (state.cluster other)) (by
        rintro node action member node' moves ⟨proper, same⟩
        have invisible := visible_of_hardware (faultless.isProcess member)
        refine ⟨moves.proper proper, ?_⟩
        rw [← same]
        apply holding_invisible moves proper invisible
        · rintro wr rfl
          cases faultless.isProcess member
        · rintro halt rfl
          cases faultless.isProcess member)
      ⟨Node.reaches_proper ready, rfl⟩
    exact kept.2.symm
  · intro other
    rw [tracks.taken other, unseen takenBy fun _ => takenBy_of_invisible]
  · intro source dest
    rw [unseen _ fun _ invisible => sentTo_of_invisible invisible dest,
      unseen _ fun _ invisible => receivedFrom_of_invisible invisible source]
    exact tracks.sent source dest

/-- The message that `YMPI_Zrecv` returns is the oldest one in its channel. -/
theorem Tracks.oldest {source : Fin nprocs} {result : Received} {payload : List UInt8}
    {after : State nprocs σ} (tracks : Tracks labels state network)
    (reached : (client.system start held).Reaches
      (labels ++ [.act rank (.received source result payload)]) after) :
    ∃ rest, network.channels (source, rank) = ⟨payload, result.len⟩ :: rest := by
  obtain ⟨messages, -, balance⟩ := reaches_carries reached source rank
  rw [flatMap_act, flatMap_act, tracks.sent source rank] at balance
  refine ⟨messages, ?_⟩
  have none : (Action.received source result payload).sentTo rank = [] := rfl
  have returned : (Action.received source result payload).receivedFrom source =
    [⟨payload, result.len⟩] := if_pos rfl
  rw [none, ite_self, List.append_nil, if_pos rfl, returned, List.append_assoc] at balance
  exact List.append_cancel_left balance

/-- An accepted post puts its message into the channel. -/
theorem Tracks.sends {buffer : RdmaBuffer} {offset : ℕ} {payload : List UInt8}
    {dest : Fin nprocs} {next : σ} (tracks : Tracks labels state network)
    (acts : Cluster.Step state.cluster
      (.act rank (.post (.zsend buffer offset payload.length dest) .accepted payload)) cluster)
    (named : client.command rank (state.locals rank) = .zsend buffer offset payload dest next)
    (kept : holding (cluster rank) = holding (state.cluster rank)) :
    Tracks (labels ++ [.act rank (.post (.zsend buffer offset payload.length dest) .accepted
        payload)]) {
      cluster := cluster
      locals := Function.update state.locals rank (client.advance rank (state.locals rank)
        (.post (.zsend buffer offset payload.length dest) .accepted payload)) }
      (network.put rank dest [⟨payload, payload.length⟩]
        { network.locals rank with program := next }) := by
  apply tracks.process acts
  · simp [Network.put, Client.advance, named, kept, tracks.held, takenBy]
  · intro other apart
    exact Function.update_of_ne apart ..
  · intro source target
    have unreceived : (Action.post (.zsend buffer offset payload.length dest) .accepted
      payload).receivedFrom source = [] := rfl
    rw [unreceived, ite_self, List.nil_append]
    by_cases same : (source, target) = (rank, dest)
    · cases same
      simp [Network.put, Action.sentTo]
    · have apart : ¬ (rank = source ∧ dest = target) := fun both => same (by simp [both])
      simp only [Network.put, Function.update_of_ne same, Action.sentTo]
      split <;> [split; skip] <;> simp_all

/-- `YMPI_Zrecv` takes the oldest message out of the channel. -/
theorem Tracks.takes {source : Fin nprocs} {result : Received} {payload : List UInt8}
    {rest : List Message} {next : Message → σ} (tracks : Tracks labels state network)
    (acts : Cluster.Step state.cluster (.act rank (.received source result payload)) cluster)
    (named : client.command rank (state.locals rank) = .zrecv source next)
    (oldest : network.channels (source, rank) = ⟨payload, result.len⟩ :: rest)
    (held : holding (cluster rank) = holding (state.cluster rank) + 1) :
    Tracks (labels ++ [.act rank (.received source result payload)]) {
      cluster := cluster
      locals := Function.update state.locals rank (client.advance rank (state.locals rank)
        (.received source result payload)) }
      (network.take rank source {
        program := next ⟨payload, result.len⟩
        held := (network.locals rank).held + 1
        taken := (network.locals rank).taken ++ [(source, ⟨payload, result.len⟩)] }) := by
  apply tracks.process acts
  · simp [Network.take, Client.advance, named, held, tracks.held, takenBy]
  · intro other apart
    exact Function.update_of_ne apart ..
  · intro origin target
    have unsent : (Action.received source result payload).sentTo target = [] := rfl
    rw [unsent, ite_self, List.append_nil]
    by_cases same : (origin, target) = (source, rank)
    · cases same
      simp [Network.take, Action.receivedFrom, oldest]
    · have apart : ¬ (rank = target ∧ source = origin) := fun both => same (by simp [both])
      simp only [Network.take, Function.update_of_ne same, Action.receivedFrom]
      split <;> [split; skip] <;> simp_all

/-- A call that only the process itself sees. -/
theorem Tracks.internal {program : σ} (tracks : Tracks labels state network)
    (next : Progress nprocs σ) (acts : Cluster.Step state.cluster (.act rank action) cluster)
    (own : next = {
      program := program
      held := holding (cluster rank)
      taken := (network.locals rank).taken })
    (unsent : ∀ dest, action.sentTo dest = []) (unreceived : ∀ source, action.receivedFrom source = [])
    (untaken : takenBy action = []) :
    Tracks (labels ++ [.act rank action]) {
      cluster := cluster
      locals := Function.update state.locals rank program } (network.advance rank next) := by
  apply tracks.process acts
  · simp [Network.advance, own, untaken]
  · intro other apart
    exact Function.update_of_ne apart ..
  · intro source dest
    rw [unsent, unreceived, ite_self, ite_self, List.append_nil, List.nil_append]
    rfl

/-- A step of a process that its program does not see. -/
theorem Client.Step.unseen (own : action.isProcess = true) (invisible : visible action = false)
    (follows : client.Follows rank (state.locals rank) (state.cluster rank) action)
    (acts : Cluster.Step state.cluster (.act rank action) cluster) :
    client.Step state (.act rank action) { state with cluster := cluster } := by
  have step := Client.Step.process own follows acts
  rwa [advance_of_invisible client rank _ invisible, Function.update_eq_self] at step

theorem Tracks.unseen (tracks : Tracks labels state network)
    (acts : Cluster.Step state.cluster (.act rank action) cluster)
    (invisible : visible action = false)
    (kept : holding (cluster rank) = holding (state.cluster rank)) :
    Tracks (labels ++ [.act rank action]) { state with cluster := cluster } network := by
  have stays : network.locals rank = {
      program := state.locals rank
      held := holding (cluster rank)
      taken := (network.locals rank).taken } := by
    rw [kept, ← tracks.program rank, ← tracks.held rank]
  have whole := tracks.internal (network.locals rank) acts stays
    (sentTo_of_invisible invisible) (receivedFrom_of_invisible invisible)
    (takenBy_of_invisible invisible)
  rwa [Network.advance, Function.update_eq_self, Function.update_eq_self] at whole

/-- A step of a process is a step of its program, or none. -/
theorem Tracks.step {label : Label nprocs} {after : State nprocs σ}
    (tracks : Tracks labels state network)
    (reached : (client.system start held).Reaches labels state)
    (step : client.Step state label after) :
    ∃ parties network', client.program.system.Execution network parties network' ∧
      Tracks (labels ++ [label]) after network' := by
  have further := reached.step step
  cases step with
  | hardware faultless acts => exact ⟨[], network, .refl network, tracks.hardware reached faultless acts⟩
  | @process rank action cluster own follows acts =>
      obtain ⟨history, ready, posted⟩ := reaches_rank reached rank
      have effect := (reaches_sound reached rank).effect ready posted
        (fun _ may => (reaches_linked reached (Or.inl may)).here) follows acts.own.2
      have located := tracks.program rank
      cases effect with
      | @sends buffer offset payload dest next named same =>
          refine ⟨[rank], _, .single (.send ?_), tracks.sends acts named same⟩
          rw [Client.program, located, named]
      | @flushes next named same =>
          refine ⟨[rank], _, .single (.internal ?_), tracks.internal
            { network.locals rank with program := next } acts ?_ (fun _ => rfl) (fun _ => rfl) rfl⟩
          · rw [Client.program, located, named]
          · simp [Client.advance, named, same, tracks.held]
      | @takes source next result payload named same =>
          obtain ⟨rest, oldest⟩ := tracks.oldest further
          have command : client.program rank (network.locals rank) =
              .receive source fun message => {
                program := next message
                held := (network.locals rank).held + 1
                taken := (network.locals rank).taken ++ [(source, message)] } := by
            rw [Client.program, located, named]
          exact ⟨[rank], _, .single (.receive command oldest),
            tracks.takes acts named oldest same⟩
      | @givesBack next named none =>
          refine ⟨[rank], _, .single (.internal ?_), tracks.internal
            { network.locals rank with program := next, held := 0 } acts ?_ (fun _ => rfl)
            (fun _ => rfl) rfl⟩
          · rw [Client.program, located, named]
          · simp [Client.advance, named, none]
      | none invisible same =>
          refine ⟨[], network, .refl network, ?_⟩
          rw [advance_of_invisible client rank _ invisible, Function.update_eq_self]
          exact tracks.unseen acts invisible same

/-- Ranks at rest stand for empty channels. -/
theorem Client.Initial.tracks (initial : client.Initial start held state) :
    Tracks [] state (Client.begun start held) := by
  obtain ⟨setup, rested⟩ := initial.rested
  refine ⟨?_, ?_, fun _ => rfl, fun _ _ => rfl⟩
  · intro rank
    exact (congrFun initial.locals rank).symm
  · intro rank
    obtain ⟨ret, idle⟩ := rested.idle rank
    rw [holding_of_ne (by simp [idle])]
    exact (rested.holds rank).symm

/-- Every reached state stands for a network that the programs reach over channels. -/
theorem reaches_tracks (reached : (client.system start held).Reaches labels state) :
    ∃ parties network, client.program.system.Execution (Client.begun start held) parties network ∧
      Tracks labels state network := by
  refine reached.induction (motive := fun labels state => ∃ parties network,
    client.program.system.Execution (Client.begun start held) parties network ∧
      Tracks labels state network) ?_ ?_
  · intro first initial
    exact ⟨[], _, .refl _, initial.tracks⟩
  · intro labels before label after earlier hypothesis step
    obtain ⟨parties, network, execution, tracks⟩ := hypothesis
    obtain ⟨others, network', moves, tracks'⟩ := tracks.step earlier step
    exact ⟨parties ++ others, network', execution.append moves, tracks'⟩

/-- What is under way in the network that a reached state stands for. -/
theorem Tracks.carries (tracks : Tracks labels state network)
    (reached : (client.system start held).Reaches labels state) (source dest : Fin nprocs) :
    Carries state.cluster source dest (network.channels (source, dest)) := by
  obtain ⟨messages, carries, balance⟩ := reaches_carries reached source dest
  rw [tracks.sent source dest] at balance
  rwa [List.append_cancel_left balance]

/-- A program never forgets what it has taken. -/
theorem taken_grows {parties : List (Fin nprocs)}
    (execution : client.program.system.Execution network parties network') (rank : Fin nprocs) :
    (network.locals rank).taken <+: (network'.locals rank).taken := by
  apply execution.invariant (motive := fun after =>
    (network.locals rank).taken <+: (after.locals rank).taken) _ List.prefix_rfl
  intro before party _ after step grown
  have update (next : Progress nprocs σ) (more : (before.locals party).taken <+: next.taken) :
      (network.locals rank).taken <+: (Function.update before.locals party next rank).taken := by
    by_cases same : rank = party
    · subst same
      rw [Function.update_self]
      exact grown.trans more
    · rwa [Function.update_of_ne same]
  cases step with
  | internal command =>
      unfold Client.program at command
      split at command <;> cases command <;> exact update _ List.prefix_rfl
  | send command =>
      unfold Client.program at command
      split at command <;> cases command
      exact update _ List.prefix_rfl
  | receive command waiting =>
      unfold Client.program at command
      split at command <;> cases command
      exact update _ (List.prefix_append _ _)

/-- The end of the programs is the end of the run over channels. -/
theorem Tracks.final (tracks : Tracks labels state network) (finished : client.Finished state) :
    client.program.system.Final network := by
  apply ChannelProgram.Stopped.final
  intro rank
  rw [Client.program, tracks.program rank, finished.stopped rank]

end Channels

end Ympi.Clients
