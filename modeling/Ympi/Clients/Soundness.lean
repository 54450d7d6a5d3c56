import Ympi.Clients.Client
import Ympi.Messaging.Readiness

/-! # What holds of a rank at any time

A rank that runs a client is between its calls or in the one that its program is at. All
requests in its queues are sends that succeed, no send queue is overrun, and no call ends the
process. These facts are kept by each step of a process and of its HCA.
-/

namespace Ympi.Clients

open LinkedList Foundation Messaging

variable {nprocs : ℕ} {σ : Type} {client : Client nprocs σ} {start : Fin nprocs → σ}
  {held : Fin nprocs → ℕ}

section History

variable {labels : List (Label nprocs)} {state : State nprocs σ}

theorem Client.Step.cluster {state' : State nprocs σ} {label : Label nprocs}
    (step : client.Step state label state') :
    Cluster.Step state.cluster label state'.cluster := by
  cases step with
  | process _ _ acts => exact acts
  | hardware _ acts => exact acts

/-- The cluster of a reached state has been reached from ranks at rest. -/
theorem reaches_rested (reached : (client.system start held).Reaches labels state) :
    ∃ setup begun, Rested held setup begun ∧
      (Cluster.system nprocs).Execution begun labels state.cluster := by
  obtain ⟨first, initial, execution⟩ := reached
  obtain ⟨setup, rested⟩ := initial.rested
  refine ⟨setup, first.cluster, rested, ?_⟩
  have image : (Cluster.system nprocs).Execution first.cluster
      (labels.flatMap fun label => [label]) state.cluster :=
    execution.simulate State.cluster _ fun _ _ _ step =>
      .single (Client.Step.cluster step)
  rw [List.flatMap_singleton'] at image
  exact image

/-- A step of the network or of an HCA is none of a process. -/
theorem Faultless.isProcess {label : Label nprocs} (faultless : Faultless label)
    {rank : Fin nprocs} {action : Action nprocs} (member : action ∈ label.actionsOf rank) :
    action.isProcess = false := by
  cases label with
  | act actor own =>
      simp only [Label.actionsOf, List.mem_ite_nil_right, List.mem_singleton] at member
      obtain ⟨-, rfl⟩ := member
      cases action with
      | complete => rfl
      | _ => exact faultless.elim
  | deliver | rdmaWrite =>
      simp only [Label.actionsOf, List.mem_append, List.mem_ite_nil_right,
        List.mem_singleton] at member
      rcases member with ⟨-, rfl⟩ | ⟨-, rfl⟩ <;> rfl
  | rdmaRead =>
      simp only [Label.actionsOf, List.mem_ite_nil_right, List.mem_singleton] at member
      obtain ⟨-, rfl⟩ := member
      rfl

/-- The lengths of all messages fit, and no post to the SRQ has failed. -/
structure Lawful (action : Action nprocs) : Prop where
  fits : action.LengthFits
  posted : ∀ wr, action ≠ .repost wr false

theorem lawful_of_hardware {action : Action nprocs} (hardware : action.isProcess = false) :
    Lawful action := by
  cases action with
  | execute | complete | arrive | land => exact ⟨trivial, by simp⟩
  | _ => cases hardware

/-- A process that is not between its calls sends nothing. -/
theorem Client.Follows.lawful {rank : Fin nprocs} {program : σ} {node node' : Node nprocs}
    {action : Action nprocs} {history : List (Action nprocs)}
    (follows : client.Follows rank program node action)
    (reached : (Node.system nprocs).Reaches history node) (step : Node.Step node action node') :
    Lawful action := by
  refine ⟨?_, ?_⟩
  · cases step with
    | postAccepted idle performed =>
        rcases follows.enters _ idle with begins | ⟨mem, same⟩
        · obtain ⟨buffer, offset, payload, dest, next, named, rfl, -⟩ := begins.eq_zsend
          have short : vbufBytes < 2 ^ 32 := by decide
          exact (client.fits named).trans_lt short
        · cases same
    | @postRefused ret call outcome ctx pc idle refused performed =>
        cases call with
        | zsend =>
            cases outcome with
            | accepted => exact absurd rfl refused
            | failed | badWr => trivial
        | write | read => trivial
    | _ => trivial
  · intro wr reposts
    have full := follows.posts wr reposts
    have room := step.srq_room reposts reached rank
    omega

/-- **Lawful histories.** -/
theorem reaches_lawful (reached : (client.system start held).Reaches labels state)
    (rank : Fin nprocs) : ∀ action ∈ nodeHistory rank labels, Lawful action := by
  refine reached.induction (motive := fun labels _ =>
    ∀ action ∈ nodeHistory rank labels, Lawful action) (by simp [nodeHistory]) ?_
  intro labels before label after earlier lawful step action member
  rw [nodeHistory, List.flatMap_append, List.flatMap_singleton] at member
  rcases List.mem_append.mp member with past | last
  · exact lawful action past
  · cases step with
    | @process actor own cluster _ follows acts =>
        simp only [Label.actionsOf, List.mem_ite_nil_right, List.mem_singleton] at last
        obtain ⟨rfl, rfl⟩ := last
        obtain ⟨setup, begun, rested, execution⟩ := reaches_rested earlier
        exact follows.lawful (reaches_node (rested.reached.append execution) actor) acts.own.2
    | hardware faultless => exact lawful_of_hardware (faultless.isProcess last)

/-- A rank of a reached state has been reached by a history in which no post to the SRQ has
failed. -/
theorem reaches_rank (reached : (client.system start held).Reaches labels state)
    (rank : Fin nprocs) : ∃ history, (Node.system nprocs).Reaches history (state.cluster rank) ∧
      ∀ wr, Action.repost wr false ∉ history := by
  obtain ⟨setup, begun, rested, execution⟩ := reaches_rested reached
  refine ⟨_, reaches_node (rested.reached.append execution) rank, ?_⟩
  intro wr member
  rw [nodeHistory, List.flatMap_append] at member
  rcases List.mem_append.mp member with early | late
  · exact rested.posted rank wr early
  · exact (reaches_lawful reached rank _ late).posted wr rfl

/-- A program stays where it is or goes on to what follows its call. -/
theorem advance_cases (client : Client nprocs σ) (rank : Fin nprocs) (program : σ)
    (action : Action nprocs) : client.advance rank program action = program ∨
      (client.command rank program).Next (client.advance rank program action) := by
  unfold Client.advance
  split
  next named => exact Or.inr (named ▸ .zsend)
  next named => exact Or.inr (named ▸ .zflush)
  next named => exact Or.inr (named ▸ .zrecv _)
  next named => exact Or.inr (named ▸ .giveBack)
  next => exact Or.inl rfl

/-- The queue pairs of a rank stay. -/
theorem Linked.step {cluster cluster' : Cluster nprocs} {label : Label nprocs}
    {rank peer : Fin nprocs} (linked : Linked cluster rank peer)
    (step : Cluster.Step cluster label cluster') : Linked cluster' rank peer := by
  have kept (rank peer : Fin nprocs) (present : (cluster rank).ctx.qps.qpList peer ≠ none) :
      (cluster' rank).ctx.qps.qpList peer ≠ none := by
    apply (step.execution rank).invariant (motive := fun node =>
      node.ctx.qps.qpList peer ≠ none) _ present
    intro node action _ node' moves present
    rwa [moves.qps_eq]
  exact ⟨kept _ _ linked.here, kept _ _ linked.there⟩

/-- A process posts between its calls. -/
theorem post_idle {node node' : Node nprocs} {call : PostCall nprocs} {outcome : PostOutcome}
    {data : List UInt8} (step : Node.Step node (.post call outcome data) node') :
    ∃ ret, node.pc = .idle ret := by
  cases step with
  | postAccepted idle => exact ⟨_, idle⟩
  | postRefused idle => exact ⟨_, idle⟩

/-- The queue of a peer stays empty until a request for it is posted. -/
theorem queues_empty {node node' : Node nprocs} {action : Action nprocs} {peer : Fin nprocs}
    (step : Node.Step node action node') (unposted : node.accepted peer action = [])
    (empty : node.sendQueue peer = [] ∧ node.executed peer = []) :
    node'.sendQueue peer = [] ∧ node'.executed peer = [] := by
  have queued := step.sendQueue_ledger peer
  rw [empty.1, unposted, List.append_nil] at queued
  obtain ⟨unlaunched, unqueued⟩ := List.append_eq_nil_iff.mp queued.symm
  have moved := (step.executed_ledger peer).length_eq
  rw [empty.2, unlaunched] at moved
  simp only [List.length_map, List.length_append, List.map_nil, List.length_nil] at moved
  exact ⟨unqueued, List.eq_nil_of_length_eq_zero (by omega)⟩

/-- The rank may still send to the peer, or has a request for it. -/
def Concerns (client : Client nprocs σ) (state : State nprocs σ) (rank peer : Fin nprocs) : Prop :=
  client.peers rank (state.locals rank) peer ∨
    ¬ ((state.cluster rank).sendQueue peer = [] ∧ (state.cluster rank).executed peer = [])

/-- A step concerns no new peer. -/
theorem Client.Step.concerns {label : Label nprocs} {state' : State nprocs σ}
    {rank peer : Fin nprocs} (step : client.Step state label state')
    (concerns : Concerns client state' rank peer) : Concerns client state rank peer := by
  by_contra untouched
  obtain ⟨apart, empty⟩ := not_or.mp untouched
  rw [not_not] at empty
  cases step with
  | @hardware label cluster faultless acts =>
      rcases concerns with may | some
      · exact apart may
      · apply some
        apply (acts.execution rank).invariant (motive := fun node =>
          node.sendQueue peer = [] ∧ node.executed peer = []) _ empty
        intro node action member node' moves empty
        have hardware := faultless.isProcess member
        apply queues_empty moves _ empty
        cases action with
        | execute | complete | arrive | land => rfl
        | _ => cases hardware
  | @process actor action cluster own follows acts =>
      by_cases same : rank = actor
      · subst same
        rcases concerns with may | some
        · simp only [Function.update_self] at may
          rcases advance_cases client rank (state.locals rank) action with stays | goesOn
          · exact apart (stays ▸ may)
          · exact apart (client.peers_next goesOn peer may)
        · apply some
          apply queues_empty acts.own.2 _ empty
          rw [List.eq_nil_iff_forall_not_mem]
          intro posted member
          obtain ⟨call, data, rfl, named, -⟩ := Node.accepted_origin member
          obtain ⟨ret, idle⟩ := post_idle acts.own.2
          rcases follows.enters ret idle with begins | ⟨mem, stores⟩
          · obtain ⟨buffer, offset, payload, dest, next, command, rfl, -⟩ := begins.eq_zsend
            cases named
            exact apart (client.peers_zsend command)
          · cases stores
      · have quiet := acts.execution rank
        rw [Label.actionsOf, if_neg (Ne.symm same)] at quiet
        rcases concerns with may | some
        · simp only [Function.update_of_ne same] at may
          exact apart may
        · simp only [← quiet.eq_of_nil] at some
          exact some empty

/-- **Queue pairs.** A rank is linked to every peer that it may send to or has a request for. -/
theorem reaches_linked (reached : (client.system start held).Reaches labels state)
    {rank peer : Fin nprocs} (concerns : Concerns client state rank peer) :
    Linked state.cluster rank peer := by
  revert concerns
  refine reached.induction (motive := fun _ state =>
    Concerns client state rank peer → Linked state.cluster rank peer) ?_ ?_
  · intro first initial concerns
    rcases concerns with may | some
    · rw [initial.locals] at may
      exact initial.linked rank peer may
    · obtain ⟨setup, rested⟩ := initial.rested
      have settled := rested.settled rank peer
      rw [Node.outstanding] at settled
      exact absurd ⟨List.eq_nil_of_length_eq_zero (by omega),
        List.eq_nil_of_length_eq_zero (by omega)⟩ some
  · intro labels before label after _ linked step concerns
    exact (linked (step.concerns concerns)).step step.cluster

end History

/-- What holds of a rank whose program is at `program`. -/
structure Sound (client : Client nprocs σ) (rank : Fin nprocs) (node : Node nprocs)
    (program : σ) : Prop where
  running : ∀ halt batch, node.pc ≠ .halted halt batch
  serves : (∃ ret, node.pc = .idle ret) ∨ ∃ call : Call nprocs, node.pc.Serves call ∧
    ∀ source, call = .zrecv source → ∃ next, client.command rank program = .zrecv source next
  successful : ∀ wc ∈ node.unhandled, wc.status = .success
  sends : ∀ peer, ∀ posted ∈ node.sendQueue peer,
    posted.wr.opcode = .send ∧ posted.data.length ≤ vbufBytes
  executed : ∀ peer, ∀ executed ∈ node.executed peer, executed.done = true
  /-- Unless the process is flushing, the send queues have room for what comes before the
  next flush. -/
  room : node.pc.Serves .zflush ∨
    ∀ peer, node.outstanding peer + client.ahead rank program peer ≤ maxSendWrPerQp

/-- A step of the HCA in which no request fails. -/
def Clean : Action nprocs → Prop
  | .execute _ posted done _ => posted.wr.opcode = .send → done = true
  | .arrive _ _ payload => payload.length ≤ vbufBytes
  | .complete _ _ status => status = .success
  | _ => True

section Steps

variable {rank : Fin nprocs} {node node' : Node nprocs} {program : σ} {action : Action nprocs}
  {history : List (Action nprocs)}

/-- A clean step produces successful completions. -/
theorem successful_step (formed : node.Formed) (clean : Clean action)
    (step : Node.Step node action node') (successful : ∀ wc ∈ node.unhandled, wc.status = .success) :
    ∀ wc ∈ node'.unhandled, wc.status = .success := by
  intro wc member
  have origin : wc ∈ node.unhandled ++ node.produced action := by
    rw [step.unhandled_ledger]
    exact List.mem_append_right _ member
  rcases List.mem_append.mp origin with waiting | new
  · exact successful wc waiting
  · cases step with
    | complete status listed paired =>
        simp only [Node.produced, paired, Option.toList_some, List.map_singleton,
          List.mem_singleton] at new
        subst new
        exact clean
    | @arrive peer front back wr qpNum payload listed paired =>
        have whole := formed.srq wr (by rw [listed]; simp)
        simp only [Node.produced, paired, Option.toList_some, List.map_singleton,
          List.mem_singleton] at new
        subst new
        rw [recvWc, if_pos]
        rw [whole.length]
        exact clean
    | _ => cases new

/-- A clean step executes requests with their effect. -/
theorem executed_step (clean : Clean action) (step : Node.Step node action node')
    (sends : ∀ peer, ∀ posted ∈ node.sendQueue peer, posted.wr.opcode = .send)
    (executed : ∀ peer, ∀ executed ∈ node.executed peer, executed.done = true) :
    ∀ peer, ∀ executed ∈ node'.executed peer, executed.done = true := by
  intro peer request member
  cases step with
  | @execute target posted rest done fetched listed =>
      by_cases same : peer = target
      · subst same
        simp only [Function.update_self] at member
        rcases List.mem_append.mp member with earlier | last
        · exact executed peer request earlier
        · rw [List.mem_singleton.mp last]
          exact clean (sends peer posted (by rw [listed]; exact List.mem_cons_self))
      · simp only [Function.update_of_ne same] at member
        exact executed peer request member
  | @complete target front back finished qpNum status listed =>
      by_cases same : peer = target
      · subst same
        simp only [Function.update_self] at member
        apply executed peer request
        rw [listed]
        rcases List.mem_append.mp member with before | behind
        · exact List.mem_append_left _ before
        · exact List.mem_append_right _ (List.mem_cons_of_mem _ behind)
      · simp only [Function.update_of_ne same] at member
        exact executed peer request member
  | _ => exact executed peer request member

/-- A step of the HCA. -/
theorem Sound.hardware (sound : Sound client rank node program) (formed : node.Formed)
    (hardware : action.isProcess = false) (clean : Clean action)
    (step : Node.Step node action node') : Sound client rank node' program := by
  have located := step.pc_eq hardware
  have unposted (peer : Fin nprocs) : node.accepted peer action = [] := by
    cases action with
    | execute | complete | arrive | land => rfl
    | _ => cases hardware
  have unhandled : action.handled = [] := by
    cases action with
    | execute | complete | arrive | land => rfl
    | _ => cases hardware
  refine ⟨?_, ?_, successful_step formed clean step sound.successful, ?_,
    executed_step clean step (fun peer posted member => (sound.sends peer posted member).1)
      sound.executed, ?_⟩
  · rw [located]
    exact sound.running
  · rw [located]
    exact sound.serves
  · intro peer posted member
    apply sound.sends peer posted
    have moved := step.sendQueue_ledger peer
    rw [unposted peer, List.append_nil] at moved
    rw [moved]
    exact List.mem_append_right _ member
  · rw [located]
    refine sound.room.imp id ?_
    intro room peer
    have moved := step.outstanding_ledger formed peer
    rw [unposted peer, unhandled] at moved
    simp only [List.length_nil, List.countP_nil, Nat.add_zero, Nat.zero_add] at moved
    rw [← moved]
    exact room peer

/-- A process ends only at an assertion or with a failed poll. -/
theorem halted_origin {halt : Halt} {batch : List Wc} (step : Node.Step node action node')
    (halted : node'.pc = .halted halt batch) :
    action = .halt halt ∨ action = .pollError ∨ node.pc = .halted halt batch := by
  cases step with
  | postAccepted idle performed =>
      have atEnd := (PostCall.perform_accepted performed).2.2
      subst atEnd
      simp only at halted
      split at halted <;> cases halted
  | postRefused idle refused performed =>
      rw [(PostCall.perform_refused refused performed).2] at halted
      cases halted
  | @poll loop taken rest =>
      cases taken <;> cases halted
  | pollError => exact Or.inr (Or.inl rfl)
  | @handle loop wc rest =>
      cases rest with
      | nil => cases loop <;> cases halted
      | cons => cases halted
  | halt =>
      cases halted
      exact Or.inl rfl
  | execute | complete | arrive | land | repost | store | register => exact Or.inr (Or.inr halted)
  | _ => cases halted

/-- The computation that comes next does not end the process. -/
theorem Sound.not_halt {halt : Halt} (sound : Sound client rank node program)
    (reached : (Node.system nprocs).Reaches history node)
    (posted : ∀ wr, Action.repost wr false ∉ history)
    (connected : ∀ peer, client.peers rank program peer → node.ctx.qps.qpList peer ≠ none)
    (follows : client.Follows rank program node (.halt halt)) :
    ¬ Node.Step node (.halt halt) node' := by
  intro step
  cases step with
  | halt fails =>
      cases fails with
      | post idle failed =>
          rcases follows.enters _ idle with begins | ⟨mem, same⟩
          · generalize named : client.command rank program = command at begins
            cases begins with
            | abort aborts =>
                apply PostCall.perform_ne_error _ _ aborts
                · exact client.inBounds named
                · exact connected _ (client.peers_zsend named)
          · cases same
      | recv atHead failed =>
          exact Context.recvHead_ne_error halt (Node.fetched_room reached posted) failed
      | @handle loop wc rest _ handling failed =>
          have waiting : wc ∈ node.unhandled := by
            rw [Node.unhandled, handling]
            exact List.mem_cons_self
          obtain ⟨ctx, performed⟩ := Node.reaches_processWc reached posted waiting
            (sound.successful wc waiting)
          cases performed.symm.trans failed
      | giveBack atReturn failed => exact Context.returnHead_ne_error halt failed

/-- A program goes on only as its process enters a call or returns from `YMPI_Zrecv`. -/
theorem advance_of_busy (step : Node.Step node action node')
    (before : ∀ ret, node.pc ≠ .idle ret) (after : ∀ ret, node'.pc ≠ .idle ret) :
    client.advance rank program action = program := by
  cases step with
  | postAccepted idle | postRefused idle | zflush idle | giveBack idle =>
      exact absurd idle (before _)
  | received => exact absurd rfl (after 0)
  | _ => unfold Client.advance; split <;> simp_all

theorem clean_of_process (own : action.isProcess = true) : Clean action := by
  cases action with
  | execute | complete | arrive => cases own
  | _ => trivial

/-- A process that enters the call of its program is in it, or has returned. -/
theorem begins_serves (begins : (client.command rank program).Begins node action)
    (step : Node.Step node action node') (running : ∀ halt, action ≠ .halt halt) :
    (∃ ret, node'.pc = .idle ret) ∨ ∃ call : Call nprocs, node'.pc.Serves call ∧
      ∀ source, call = .zrecv source →
        ∃ next, client.command rank (client.advance rank program action) = .zrecv source next := by
  generalize named : client.command rank program = command at begins
  have enters {call : Call nprocs} (starts : call.Starts action)
      (other : ∀ source, call = .zrecv source →
        ∃ next, client.command rank (client.advance rank program action) = .zrecv source next) :
      (∃ ret, node'.pc = .idle ret) ∨ ∃ call : Call nprocs, node'.pc.Serves call ∧
        ∀ source, call = .zrecv source →
          ∃ next, client.command rank (client.advance rank program action) =
            .zrecv source next :=
    (step.starts_serves starts).imp id fun serves => ⟨call, serves, other⟩
  cases begins with
  | zsend outcome => exact enters (.post _ outcome _) (by simp)
  | abort => exact absurd rfl (running _)
  | zflush => exact enters .zflush (by simp)
  | giveBack => exact enters .giveBack (by simp)
  | @zrecv source next =>
      apply enters (.zrecv source)
      rintro _ ⟨⟩
      refine ⟨next, ?_⟩
      simp only [Client.advance, named]

/-- `YMPI_Zflush` returns when no request is to be waited for. -/
theorem flush_ends {ret : Int} (flushing : node.pc.Serves .zflush)
    (step : Node.Step node action node') (polls : action ≠ .pollError)
    (returned : node'.pc = .idle ret) : ¬ 0 < node.ctx.pendingSendWr := by
  cases step with
  | flushEnd atHead none => exact none
  | postAccepted idle | postRefused idle | zflush idle | zrecv _ idle | giveBack idle
  | store _ idle | register _ idle => exact absurd idle (flushing.not_idle _)
  | throttleTest | flushTest | recvTest | halt => cases returned
  | received located =>
      rw [located] at flushing
      cases flushing with
      | head same => cases same
  | repostFailed located | returned located =>
      rw [located] at flushing
      cases flushing.eq_giveBack
  | @poll loop taken rest => cases taken <;> cases returned
  | pollError => exact absurd rfl polls
  | @handle loop wc rest ctx located =>
      rw [located] at flushing
      cases flushing with
      | handling _ same =>
          cases same
          cases rest <;> cases returned
  | repost | execute | complete | arrive | land => exact absurd returned (flushing.not_idle _)

/-- A step that posts nothing makes no request outstanding. -/
theorem outstanding_le (formed : node.Formed) (step : Node.Step node action node')
    (quiet : ∀ call outcome data, action ≠ .post call outcome data) (peer : Fin nprocs) :
    node'.outstanding peer ≤ node.outstanding peer := by
  have moved := step.outstanding_ledger formed peer
  have none : node.accepted peer action = [] := by
    cases action with
    | post call outcome data => exact absurd rfl (quiet call outcome data)
    | _ => rfl
  rw [none, List.length_nil] at moved
  omega

/-- Between two flushes a program posts what it has announced. -/
theorem ahead_advance (client : Client nprocs σ) (rank : Fin nprocs) (program : σ)
    (quiet : ∀ call outcome data, action ≠ .post call outcome data) (unflushed : action ≠ .zflush)
    (peer : Fin nprocs) :
    client.ahead rank (client.advance rank program action) peer ≤
      client.ahead rank program peer := by
  unfold Client.advance
  split
  next => exact absurd rfl (quiet _ _ _)
  next => exact absurd rfl unflushed
  next named => exact client.ahead_zrecv named _ peer
  next named => exact client.ahead_giveBack named peer
  next => exact le_rfl

/-- The send queue of a program has room for its next message. -/
theorem Sound.send_room {ret : Int} {buffer : RdmaBuffer} {offset : ℕ} {payload : List UInt8}
    {dest : Fin nprocs} {next : σ} (sound : Sound client rank node program)
    (idle : node.pc = .idle ret)
    (named : client.command rank program = .zsend buffer offset payload dest next)
    (peer : Fin nprocs) : node.outstanding peer + client.ahead rank next peer +
      (if peer = dest then 1 else 0) ≤ maxSendWrPerQp := by
  have room := sound.room.resolve_left fun flushing => flushing.not_idle ret idle
  have announced := client.ahead_zsend named peer
  have before := room peer
  omega

/-- A post takes the room that was left for it. -/
theorem Sound.room_post {call : PostCall nprocs} {outcome : PostOutcome} {data : List UInt8}
    (sound : Sound client rank node program) (formed : node.Formed)
    (follows : client.Follows rank program node (.post call outcome data))
    (step : Node.Step node (.post call outcome data) node') (peer : Fin nprocs) :
    node'.outstanding peer +
      client.ahead rank (client.advance rank program (.post call outcome data)) peer ≤
        maxSendWrPerQp := by
  obtain ⟨ret, idle⟩ := post_idle step
  rcases follows.enters ret idle with begins | ⟨mem, same⟩
  · obtain ⟨buffer, offset, payload, dest, next, named, rfl, rfl⟩ := begins.eq_zsend
    have room := sound.send_room idle named peer
    have moved := step.outstanding_ledger formed peer
    have single : (node.accepted peer (.post (.zsend buffer offset data.length dest) outcome
        data)).length ≤ if peer = dest then 1 else 0 := by
      by_cases same : peer = dest
      · subst same
        cases outcome <;> simp [Node.accepted, PostCall.dest]
      · cases outcome <;> simp [Node.accepted, PostCall.dest, Ne.symm same]
    simp only [Client.advance, named]
    omega
  · cases same

/-- A step that is none of these takes no room. -/
theorem Sound.room_quiet (sound : Sound client rank node program)
    (reached : (Node.system nprocs).Reaches history node) (step : Node.Step node action node')
    (polls : action ≠ .pollError) (quiet : ∀ call outcome data, action ≠ .post call outcome data)
    (unflushed : action ≠ .zflush) : node'.pc.Serves .zflush ∨ ∀ peer, node'.outstanding peer +
      client.ahead rank (client.advance rank program action) peer ≤ maxSendWrPerQp := by
  have fewer := outstanding_le (Node.reaches_formed reached) step quiet
  by_cases flushing : node.pc.Serves .zflush
  · rcases step.serves flushing with returned | goesOn
    · apply Or.inr
      intro peer
      have settled := Node.reaches_settled reached (flush_ends flushing step polls returned) peer
      have bounded := client.ahead_le rank (client.advance rank program action) peer
      have none := fewer peer
      omega
    · exact Or.inl goesOn
  · apply Or.inr
    intro peer
    have before := sound.room.resolve_left flushing peer
    have announced := ahead_advance client rank program quiet unflushed peer
    exact (Nat.add_le_add (fewer peer) announced).trans before

/-- The room in the send queues, after a step of the process. -/
theorem Sound.room_process (sound : Sound client rank node program)
    (reached : (Node.system nprocs).Reaches history node)
    (follows : client.Follows rank program node action) (step : Node.Step node action node') :
    node'.pc.Serves .zflush ∨ ∀ peer, node'.outstanding peer +
      client.ahead rank (client.advance rank program action) peer ≤ maxSendWrPerQp := by
  cases action with
  | post => exact Or.inr (sound.room_post (Node.reaches_formed reached) follows step)
  | zflush =>
      cases step with
      | zflush => exact Or.inl (.head rfl)
  | _ => exact sound.room_quiet reached step follows.polls (by simp) (by simp)

/-- A step of the process. -/
theorem Sound.process (sound : Sound client rank node program)
    (reached : (Node.system nprocs).Reaches history node)
    (posted : ∀ wr, Action.repost wr false ∉ history)
    (connected : ∀ peer, client.peers rank program peer → node.ctx.qps.qpList peer ≠ none)
    (own : action.isProcess = true) (follows : client.Follows rank program node action)
    (step : Node.Step node action node') :
    Sound client rank node' (client.advance rank program action) := by
  have formed := Node.reaches_formed reached
  have running (halt : Halt) : action ≠ .halt halt := by
    rintro rfl
    exact sound.not_halt reached posted connected follows step
  refine ⟨?_, ?_, successful_step formed (clean_of_process own) step sound.successful, ?_,
    executed_step (clean_of_process own) step
      (fun peer posted member => (sound.sends peer posted member).1) sound.executed,
    sound.room_process reached follows step⟩
  · intro halt batch halted
    rcases halted_origin step halted with ended | failed | earlier
    · exact running halt ended
    · exact follows.polls failed
    · exact sound.running halt batch earlier
  · by_cases after : ∃ ret, node'.pc = .idle ret
    · exact Or.inl after
    · rcases sound.serves with ⟨ret, idle⟩ | ⟨call, serves, awaited⟩
      · rcases follows.enters ret idle with begins | ⟨mem, rfl⟩
        · exact begins_serves begins step running
        · cases step with
          | store => exact absurd ⟨ret, idle⟩ after
      · refine Or.inr ⟨call, (step.serves serves).resolve_left fun same => after ⟨0, same⟩, ?_⟩
        rw [advance_of_busy step serves.not_idle fun ret same => after ⟨ret, same⟩]
        exact awaited
  · intro peer request member
    have origin : request ∈ node.sendQueue peer ++ node.accepted peer action := by
      rw [step.sendQueue_ledger peer]
      exact List.mem_append_right _ member
    rcases List.mem_append.mp origin with earlier | new
    · exact sound.sends peer request earlier
    · obtain ⟨call, data, rfl, -, rfl⟩ := Node.accepted_origin new
      cases step with
      | postAccepted idle performed =>
          rcases follows.enters _ idle with begins | ⟨mem, same⟩
          · obtain ⟨buffer, offset, payload, dest, next, named, rfl, -⟩ := begins.eq_zsend
            have short : vbufBytes < 2 ^ 32 := by decide
            have fits := client.fits named
            have gathered : (node.ctx.zsendWr buffer offset payload.length dest).gather node.mem =
                _ := SendWr.gather_sgList rfl (fits.trans_lt short) node.mem
            refine ⟨rfl, ?_⟩
            rw [PostCall.wr, gathered, length_readBlock]
            exact fits
          · cases same
      | postRefused _ refused => exact absurd rfl refused

end Steps

section State

variable {labels : List (Label nprocs)} {state : State nprocs σ} {label : Label nprocs}

/-- The steps of the network and of the HCAs are clean. -/
theorem Faultless.clean {cluster : Cluster nprocs} (faultless : Faultless label)
    (sound : ∀ rank, Sound client rank (state.cluster rank) (state.locals rank))
    (step : Cluster.Step state.cluster label cluster) {rank : Fin nprocs}
    {action : Action nprocs} (member : action ∈ label.actionsOf rank) : Clean action := by
  cases label with
  | act actor own =>
      simp only [Label.actionsOf, List.mem_ite_nil_right, List.mem_singleton] at member
      obtain ⟨-, rfl⟩ := member
      cases action with
      | complete => exact faultless
      | _ => exact faultless.elim
  | deliver source dest posted wr =>
      have waiting : posted ∈ (state.cluster source).sendQueue dest := by
        cases step with
        | deliver opcode sent arrived =>
            cases sent with
            | execute _ _ listed =>
                rw [listed]
                exact List.mem_cons_self
      simp only [Label.actionsOf, List.mem_append, List.mem_ite_nil_right,
        List.mem_singleton] at member
      rcases member with ⟨-, rfl⟩ | ⟨-, rfl⟩
      · exact fun _ => rfl
      · exact ((sound source).sends dest posted waiting).2
  | rdmaWrite source dest posted done =>
      have opcode : posted.wr.opcode = .rdmaWrite := by
        cases step with
        | writeDone opcode | writeRefused opcode => exact opcode
      simp only [Label.actionsOf, List.mem_append, List.mem_ite_nil_right,
        List.mem_singleton] at member
      rcases member with ⟨-, rfl⟩ | ⟨-, rfl⟩
      · intro isSend
        cases opcode.symm.trans isSend
      · trivial
  | rdmaRead source dest posted done fetched =>
      have opcode : posted.wr.opcode = .rdmaRead := by
        cases step with
        | readDone opcode | readRefused opcode => exact opcode
      simp only [Label.actionsOf, List.mem_ite_nil_right, List.mem_singleton] at member
      obtain ⟨-, rfl⟩ := member
      intro isSend
      cases opcode.symm.trans isSend

/-- Ranks at rest are sound. -/
theorem Rested.sound {setup : List (Label nprocs)} {cluster : Cluster nprocs}
    (rested : Rested held setup cluster) (client : Client nprocs σ) (rank : Fin nprocs)
    (program : σ) : Sound client rank (cluster rank) program := by
  obtain ⟨ret, idle⟩ := rested.idle rank
  have settled (peer : Fin nprocs) : (cluster rank).sendQueue peer = [] ∧
      (cluster rank).executed peer = [] := by
    have none := rested.settled rank peer
    rw [Node.outstanding] at none
    exact ⟨List.eq_nil_of_length_eq_zero (by omega), List.eq_nil_of_length_eq_zero (by omega)⟩
  refine ⟨?_, Or.inl ⟨ret, idle⟩, ?_, ?_, ?_, Or.inr ?_⟩
  · intro halt batch halted
    cases idle.symm.trans halted
  · intro wc member
    rw [Node.unhandled, idle, rested.unpolled rank] at member
    cases member
  · intro peer posted member
    rw [(settled peer).1] at member
    cases member
  · intro peer executed member
    rw [(settled peer).2] at member
    cases member
  · intro peer
    rw [rested.settled rank peer, Nat.zero_add]
    exact client.ahead_le rank program peer

/-- **Soundness.** Every rank of a reached state is sound. -/
theorem reaches_sound (reached : (client.system start held).Reaches labels state)
    (rank : Fin nprocs) : Sound client rank (state.cluster rank) (state.locals rank) := by
  revert rank
  refine reached.induction (motive := fun _ state =>
    ∀ rank, Sound client rank (state.cluster rank) (state.locals rank)) ?_ ?_
  · intro first initial rank
    obtain ⟨setup, rested⟩ := initial.rested
    exact rested.sound client rank _
  · intro labels before label after earlier sound step rank
    cases step with
    | @process actor action cluster own follows acts =>
        by_cases same : rank = actor
        · subst same
          obtain ⟨history, ready, posted⟩ := reaches_rank earlier rank
          simp only [Function.update_self]
          exact (sound rank).process ready posted
            (fun _ may => (reaches_linked earlier (Or.inl may)).here) own
            follows acts.own.2
        · have quiet := acts.execution rank
          simp only [Label.actionsOf, if_neg (Ne.symm same)] at quiet
          simp only [Function.update_of_ne same]
          rw [← quiet.eq_of_nil]
          exact sound rank
    | @hardware label cluster faultless acts =>
        obtain ⟨history, ready, -⟩ := reaches_rank earlier rank
        have kept := (acts.execution rank).invariant (motive := fun node =>
          node.Formed ∧ Sound client rank node (before.locals rank)) (by
            rintro node action member node' moves ⟨formed, holds⟩
            exact ⟨moves.formed formed, holds.hardware formed (faultless.isProcess member)
              (faultless.clean sound acts member) moves⟩)
          ⟨Node.reaches_formed ready, sound rank⟩
        exact kept.2

end State

end Ympi.Clients
