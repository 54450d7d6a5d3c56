import Ympi.Clients.Limits
import Ympi.Clients.PointToPointTest

/-! # What the library guarantees to its clients

Programs that send, flush, receive and give buffers back, and that keep to the limits of the
library and of the hardware, see channels that are first in, first out and lose nothing. What they
receive does not depend on the interleaving, and none of their calls fails. A run of the
point-to-point test to its end serves as the example.
-/

namespace Ympi.Clients

open LinkedList Foundation Messaging

variable {nprocs : ℕ} {σ : Type}

namespace PointToPoint

/-- Rank 0 flushes after each batch. -/
theorem light_test (setting : Setting) (content : Content) (turns : ℕ) (rank : Fin 2) :
    Op.Light maxSendWrPerQp (test setting content turns rank).ops := by
  have length : (batch content).length = maxSendWrPerQp := by
    rw [batch, List.length_map, List.length_range]
  have sends : Op.Light maxSendWrPerQp (sendBatch setting content).ops :=
    Op.light_sends _ _ (Op.light_nil.cons fun _ => id) length.le fun _ => rfl
  have receives : Op.Light maxSendWrPerQp receiveBatch.ops :=
    (Op.light_receives _).append (Op.light_nil.cons fun _ => id)
  unfold test
  split
  · exact Script.light_times sends turns
  · exact Script.light_times receives turns

theorem batch_entries : maxSendWrPerQp + prepostDepth ≤ cqEntries := by
  decide

/-- The tests keep to the limits. -/
def bounded (setting : Setting) (content : Content) (turns : ℕ) :
    Bounded (Script.client 2) (test setting content turns) where
  cap := maxSendWrPerQp
  load := Script.load 2 maxSendWrPerQp
  light := light_test setting content turns
  few := batch_entries

end PointToPoint

open PointToPoint (sender correctness bounded iters)

/-- **Refinement to channels.** However the processes, their HCAs and the network interleave,
programs within the limits have done what they can do over channels that are first in, first out and
lose nothing: their states, the buffers they hold, the messages they have taken and those under way
are the ones of a run over such channels. The completion queues are not overrun, and at every moment
an HCA finds the bytes of a request that is not complete as they were when it was posted. -/
theorem refines_channels (client : Client nprocs σ) (start : Fin nprocs → σ)
    (bounded : Bounded client start) (held : Fin nprocs → ℕ) {labels : List (Label nprocs)}
    {state : State nprocs σ} (reached : (bounded.runs held).Reaches labels state) :
    (∃ parties network, client.program.system.Execution (Client.begun start held) parties network ∧
      Tracks labels state network ∧ ∀ source dest,
        Carries state.cluster source dest (network.channels (source, dest))) ∧
    ∀ rank, (state.cluster rank).cq.length ≤ cqEntries ∧ Intact (state.cluster rank) := by
  obtain ⟨parties, network, execution, tracks⟩ := reaches_tracks (bounded.reaches reached)
  refine ⟨⟨parties, network, execution, tracks, tracks.carries (bounded.reaches reached)⟩, ?_⟩
  intro rank
  exact ⟨bounded.cq_le reached rank, reaches_intact reached rank⟩

theorem refines_channels_test : ∃ labels state, (Script.client 2).Finished state ∧
    ∃ parties network, (Script.client 2).program.system.Execution
      (Client.begun (correctness sender) fun _ => 0) parties network ∧
        Tracks labels state network := by
  obtain ⟨labels, state, reached, finished⟩ := PointToPoint.exists_finished
  obtain ⟨⟨parties, network, execution, tracks, -⟩, -⟩ :=
    refines_channels _ _ (bounded sender .words iters) _ reached
  exact ⟨labels, state, finished, parties, network, execution, tracks⟩

/-- **Determinacy.** What a rank receives does not depend on how the ranks, their HCAs and the
network interleave: of two runs of the same programs within the limits one has taken the first of the
messages that the other has taken, and no more when the other is at the end. Runs at their ends agree
on the programs, the messages taken and the buffers held. -/
theorem received_determined (client : Client nprocs σ) (start : Fin nprocs → σ)
    (bounded : Bounded client start) (held : Fin nprocs → ℕ) {labels labels' : List (Label nprocs)}
    {state state' : State nprocs σ} (reached : (bounded.runs held).Reaches labels state)
    (reached' : (bounded.runs held).Reaches labels' state') (rank : Fin nprocs) :
    ((nodeHistory rank labels).flatMap takenBy <+: (nodeHistory rank labels').flatMap takenBy ∨
      (nodeHistory rank labels').flatMap takenBy <+: (nodeHistory rank labels).flatMap takenBy) ∧
    (client.Finished state →
      (nodeHistory rank labels').flatMap takenBy <+: (nodeHistory rank labels).flatMap takenBy) ∧
    (client.Finished state → client.Finished state' → state.locals rank = state'.locals rank ∧
      (nodeHistory rank labels).flatMap takenBy = (nodeHistory rank labels').flatMap takenBy ∧
      (state.cluster rank).fetchedIds.length = (state'.cluster rank).fetchedIds.length) := by
  obtain ⟨parties, network, execution, tracks⟩ := reaches_tracks (bounded.reaches reached)
  obtain ⟨parties', network', execution', tracks'⟩ := reaches_tracks (bounded.reaches reached')
  obtain ⟨back, back', common, onwards, onwards'⟩ :=
    (ChannelProgram.conflictFree client.program).joins execution execution'
  have first := taken_grows onwards rank
  have second := taken_grows onwards' rank
  rw [tracks.taken rank] at first
  rw [tracks'.taken rank] at second
  refine ⟨List.prefix_or_prefix_of_prefix first second, ?_, ?_⟩
  · intro finished
    have same := (tracks.final finished).stays onwards
    rwa [same, tracks.taken rank] at second
  · intro finished finished'
    have same : network = network' :=
      ((tracks.final finished).stays onwards).symm.trans ((tracks'.final finished').stays onwards')
    subst same
    have outside {state : State nprocs σ} (finished : client.Finished state) :
        holding (state.cluster rank) = (state.cluster rank).fetchedIds.length := by
      obtain ⟨ret, idle⟩ := finished.idle rank
      exact holding_of_ne (by simp [idle])
    refine ⟨(tracks.program rank).symm.trans (tracks'.program rank),
      (tracks.taken rank).symm.trans (tracks'.taken rank), ?_⟩
    rw [← outside finished, ← outside finished', ← tracks.held rank, ← tracks'.held rank]

/-- Every other run of the test takes a part of what a run to its end has taken. -/
theorem received_determined_test : ∃ labels state, (Script.client 2).Finished state ∧
    ∀ labels' state', ((bounded sender .words iters).runs fun _ => 0).Reaches labels' state' →
        (nodeHistory 1 labels').flatMap takenBy <+: (nodeHistory 1 labels).flatMap takenBy := by
  obtain ⟨labels, state, reached, finished⟩ := PointToPoint.exists_finished
  refine ⟨labels, state, finished, ?_⟩
  intro labels' state' reached'
  exact (received_determined _ _ (bounded sender .words iters) _ reached reached' 1).2.1 finished

section Failures

variable {client : Client nprocs σ} {start : Fin nprocs → σ} {held : Fin nprocs → ℕ}
  {labels : List (Label nprocs)} {state : State nprocs σ}

/-- The send queue of a rank between its calls has room for the next request. -/
theorem Sound.accepted {rank : Fin nprocs} {node node' : Node nprocs} {program : σ}
    {call : PostCall nprocs} {outcome : PostOutcome} {data : List UInt8}
    (sound : Sound client rank node program)
    (follows : client.Follows rank program node (.post call outcome data))
    (step : Node.Step node (.post call outcome data) node') : outcome = .accepted := by
  by_contra refused
  obtain ⟨ret, idle⟩ := post_idle step
  rcases follows.enters ret idle with begins | ⟨mem, same⟩
  · obtain ⟨buffer, offset, payload, dest, next, named, rfl, -⟩ := begins.eq_zsend
    have full := follows.accepts _ _ _ rfl refused
    have room := sound.send_room idle named dest
    simp only [PostCall.dest, if_true] at full room
    omega
  · cases same

/-- No send queue is overrun. -/
theorem reaches_outstanding_le (reached : (client.system start held).Reaches labels state)
    (rank peer : Fin nprocs) : (state.cluster rank).outstanding peer ≤ maxSendWrPerQp := by
  revert rank peer
  refine reached.induction (motive := fun _ state => ∀ rank peer,
    (state.cluster rank).outstanding peer ≤ maxSendWrPerQp) ?_ ?_
  · intro first initial rank peer
    obtain ⟨setup, rested⟩ := initial.rested
    rw [rested.settled]
    exact Nat.zero_le _
  · intro labels before label after earlier bounded step rank peer
    have quiet {action : Action nprocs} {node : Node nprocs} {own : Node nprocs}
        (formed : own.Formed) (moves : Node.Step own action node)
        (unposted : ∀ call outcome data, action ≠ .post call outcome data)
        (few : own.outstanding peer ≤ maxSendWrPerQp) : node.outstanding peer ≤ maxSendWrPerQp :=
      (outstanding_le formed moves unposted peer).trans few
    obtain ⟨history, ready, -⟩ := reaches_rank earlier rank
    have formed := Node.reaches_formed ready
    cases step with
    | @process actor action cluster own follows acts =>
        by_cases same : rank = actor
        · subst same
          have sound := reaches_sound earlier rank
          cases action with
          | post call outcome data =>
              exact (Nat.le_add_right _ _).trans
                (sound.room_post formed follows acts.own.2 peer)
          | _ => exact quiet formed acts.own.2 (by simp) (bounded rank peer)
        · have still := acts.execution rank
          simp only [Label.actionsOf, if_neg (Ne.symm same)] at still
          simp only
          rw [← still.eq_of_nil]
          exact bounded rank peer
    | @hardware label cluster faultless acts =>
        have kept := (acts.execution rank).invariant (motive := fun node =>
          node.Formed ∧ node.outstanding peer ≤ maxSendWrPerQp) (by
            rintro node action member node' moves ⟨formed, few⟩
            refine ⟨moves.formed formed, quiet formed moves ?_ few⟩
            rintro call outcome data rfl
            cases faultless.isProcess member) ⟨formed, bounded rank peer⟩
        exact kept.2

/-- **No call fails.** In every run of programs within the limits no process ends, every completion
is successful, every post is accepted, by the send queue as by the SRQ, and neither a send queue nor
the completion queue ever holds more than it was created for. -/
theorem calls_never_fail (client : Client nprocs σ) (start : Fin nprocs → σ)
    (bounded : Bounded client start) (held : Fin nprocs → ℕ) {labels : List (Label nprocs)}
    {state : State nprocs σ} (reached : (bounded.runs held).Reaches labels state)
    (rank : Fin nprocs) :
    (∀ halt batch, (state.cluster rank).pc ≠ .halted halt batch) ∧
    (∀ wc ∈ (state.cluster rank).unhandled, wc.status = .success) ∧
    (∀ peer, (state.cluster rank).outstanding peer ≤ maxSendWrPerQp) ∧
    (state.cluster rank).cq.length ≤ cqEntries ∧
    (∀ call outcome data, Action.post call outcome data ∈ nodeHistory rank labels →
      outcome = .accepted) ∧
    ∀ wr, Action.repost wr false ∉ nodeHistory rank labels := by
  have full := bounded.cq_le reached rank
  replace reached := bounded.reaches reached
  have sound := reaches_sound reached rank
  refine ⟨sound.running, sound.successful, reaches_outstanding_le reached rank, full, ?_, ?_⟩
  · refine reached.induction (motive := fun labels _ => ∀ call outcome data,
      Action.post call outcome data ∈ nodeHistory rank labels → outcome = .accepted)
      (by simp [nodeHistory]) ?_
    intro labels before label after earlier accepted step call outcome data member
    rw [nodeHistory, List.flatMap_append, List.flatMap_singleton] at member
    rcases List.mem_append.mp member with past | last
    · exact accepted call outcome data past
    · cases step with
      | process own follows acts =>
          simp only [Label.actionsOf, List.mem_ite_nil_right, List.mem_singleton] at last
          obtain ⟨rfl, rfl⟩ := last
          exact (reaches_sound earlier _).accepted follows acts.own.2
      | hardware faultless => cases faultless.isProcess last
  · intro wr member
    exact (reaches_lawful reached rank _ member).posted wr rfl

theorem calls_never_fail_test : ∃ labels state, (Script.client 2).Finished state ∧
    ∀ peer, (state.cluster peer).outstanding 1 ≤ maxSendWrPerQp ∧
      (state.cluster peer).cq.length ≤ cqEntries ∧
      ∀ wr, Action.repost wr false ∉ nodeHistory (peer : Fin 2) labels := by
  obtain ⟨labels, state, reached, finished⟩ := PointToPoint.exists_finished
  refine ⟨labels, state, finished, ?_⟩
  intro peer
  obtain ⟨-, -, few, full, -, posted⟩ := calls_never_fail _ _ (bounded sender .words iters) _ reached peer
  exact ⟨few 1, full, posted⟩

end Failures

end Ympi.Clients
