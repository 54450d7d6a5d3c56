import Ympi.Clients.Realization

/-! # Jams

A rank that waits in `YMPI_Zrecv` for a source gives no buffer back. When the messages of the
other sources and the buffers that it holds already take all its receive buffers, no message of
that source can arrive any more, and the program stays where it is for good. The cluster can
come into such a state whenever the programs over channels come into a network of this kind.
-/

namespace Ympi.Clients

open LinkedList Foundation Messaging

variable {nprocs : ℕ} {σ : Type}

/-- No message of `source` is in the node, and no buffer is posted for one. -/
structure Dry (source : Fin nprocs) (node : Node nprocs) : Prop where
  outside : node.pc ≠ .returning
  unposted : node.srq = []
  pending : node.pending source = []
  unhandled : node.unhandledFrom source = []

section Nodes

variable {source : Fin nprocs} {node node' : Node nprocs} {action : Action nprocs}

/-- A completion that is produced without a posted buffer is that of a request. -/
theorem produced_filter_eq_nil (formed : node.Formed) (step : Node.Step node action node')
    (unposted : node.srq = []) :
    (node.produced action).filter (fun wc => node.isFrom source wc) = [] := by
  rw [List.filter_eq_nil_iff]
  intro wc member isFrom
  cases step with
  | @complete peer front back executed qpNum status listed paired =>
      have addressed := formed.executed peer executed
        (by rw [listed]; exact List.mem_append_right _ List.mem_cons_self)
      simp only [Node.produced, paired, Option.toList_some, List.map_singleton,
        List.mem_singleton] at member
      subst member
      exact addressed.tag (of_decide_eq_true (of_decide_eq_true isFrom).1)
  | arrive payload listed =>
      rw [unposted] at listed
      simp at listed
  | _ => cases member

theorem received_head {result : Received} {payload : List UInt8}
    (step : Node.Step node (.received source result payload) node') :
    node.pc = .head (.recv source) := by
  cases step with
  | received atHead => exact atHead

/-- A node stays dry unless its process gives buffers back, and hands out no message of the
source. -/
theorem Dry.step (dry : Dry source node) (formed : node.Formed) (proper : node.Proper)
    (step : Node.Step node action node') (keeps : action ≠ .giveBack) :
    Dry source node' ∧ action.handedOut source = [] := by
  have handled := step.unhandledFrom_ledger source
  rw [dry.unhandled, produced_filter_eq_nil formed step dry.unposted, List.append_nil] at handled
  obtain ⟨none, unhandled⟩ := List.append_eq_nil_iff.mp handled.symm
  have queued := step.pending_ledger proper source
  have unqueued : node.queuedFor source action = [] := by
    cases action with
    | handle wc =>
        simp only [Node.queuedFor]
        split
        next isFrom => simp [Action.handled, isFrom] at none
        next => rfl
    | _ => rfl
  rw [dry.pending, unqueued, List.append_nil] at queued
  obtain ⟨kept, pending⟩ := List.append_eq_nil_iff.mp queued.symm
  refine ⟨⟨?_, ?_, pending, unhandled⟩, kept⟩
  · intro returning
    rcases step.returning_origin returning with inside | gives
    · exact dry.outside inside
    · exact keeps gives
  · have moved := step.srq_ledger
    have unreposted : action.reposted = [] := by
      cases step with
      | repost inside => exact absurd inside dry.outside
      | _ => rfl
    rw [dry.unposted, unreposted, List.append_nil] at moved
    exact (List.append_eq_nil_iff.mp moved.symm.eq_nil).2

end Nodes

/-- The rank waits for a message of `source`, and none can come. -/
structure Starved (client : Client nprocs σ) (rank source : Fin nprocs)
    (state : State nprocs σ) : Prop where
  awaits : ∃ next, client.command rank (state.locals rank) = .zrecv source next
  dry : Dry source (state.cluster rank)

section Clusters

variable {client : Client nprocs σ} {start : Fin nprocs → σ} {held : Fin nprocs → ℕ}
  {labels : List (Label nprocs)} {state after : State nprocs σ} {rank source : Fin nprocs}
  {network network' : Network (Fin nprocs) Message (Progress nprocs σ)}

/-- A step leaves the rank starved, and its program where it is. -/
theorem Starved.step {label : Label nprocs} (starved : Starved client rank source state)
    (reached : (client.system start held).Reaches labels state)
    (step : client.Step state label after) :
    Starved client rank source after ∧ after.locals rank = state.locals rank := by
  obtain ⟨next, named⟩ := starved.awaits
  obtain ⟨history, ready, -⟩ := reaches_rank reached rank
  have formed := Node.reaches_formed ready
  have proper := Node.reaches_proper ready
  cases step with
  | @hardware label cluster faultless acts =>
      have kept := (acts.execution rank).invariant (motive := fun node =>
        (node.Formed ∧ node.Proper) ∧ Dry source node) (by
          rintro node action member node' moves ⟨⟨formed, proper⟩, dry⟩
          have keeps : action ≠ .giveBack := by
            rintro rfl
            cases faultless.isProcess member
          exact ⟨⟨moves.formed formed, moves.proper proper⟩,
            (dry.step formed proper moves keeps).1⟩)
        ⟨⟨formed, proper⟩, starved.dry⟩
      exact ⟨⟨⟨next, named⟩, kept.2⟩, rfl⟩
  | @process actor action cluster own follows acts =>
      by_cases same : rank = actor
      · subst same
        have keeps : action ≠ .giveBack := by
          rintro rfl
          obtain ⟨ret, idle⟩ := acts.own.2.giveBack_idle
          rcases follows.enters ret idle with begins | ⟨mem, stores⟩
          · rw [named] at begins
            cases begins
          · cases stores
        obtain ⟨dry, kept⟩ := starved.dry.step formed proper acts.own.2 keeps
        have stays : client.advance rank (state.locals rank) action = state.locals rank := by
          unfold Client.advance
          rw [named]
          cases action with
          | received other result payload =>
              obtain ⟨next', named'⟩ :=
                (reaches_sound reached rank).awaits (Or.inl (received_head acts.own.2))
              cases named.symm.trans named'
              simp [Action.handedOut] at kept
          | _ => rfl
        rw [stays, Function.update_eq_self]
        exact ⟨⟨⟨next, named⟩, dry⟩, rfl⟩
      · have quiet := acts.execution rank
        rw [Label.actionsOf, if_neg (Ne.symm same)] at quiet
        simp only [Function.update_of_ne same]
        refine ⟨⟨?_, ?_⟩, trivial⟩
        · simp only [Function.update_of_ne same]
          exact ⟨next, named⟩
        · simp only [← quiet.eq_of_nil]
          exact starved.dry

/-- **Starvation is for good.** -/
theorem Starved.execution {more : List (Label nprocs)}
    (starved : Starved client rank source state)
    (reached : (client.system start held).Reaches labels state)
    (execution : (client.system start held).Execution state more after) :
    Starved client rank source after ∧ after.locals rank = state.locals rank := by
  induction execution with
  | refl => exact ⟨starved, rfl⟩
  | snoc earlier step ih =>
      obtain ⟨there, same⟩ := ih
      obtain ⟨kept, same'⟩ := there.step (reached.append earlier) step
      exact ⟨kept, same'.trans same⟩

/-- In a quiet cluster a rank whose receive buffers are all taken is dry for every source
without a message under way. -/
theorem Quiet.dry (quiet : Quiet client state)
    (reached : (client.system start held).Reaches labels state)
    (tracks : Tracks labels state network) (fits : Fits network)
    (taken : demand network rank = prepostDepth)
    (none : network.channels (source, rank) = []) : Dry source (state.cluster rank) := by
  have stock := stock_eq reached rank (quiet.waits rank)
  rw [demand_eq reached tracks rank] at taken
  simp only [quiet.unsent reached tracks fits, List.length_nil, Nat.add_zero] at taken
  have clear := tracks.clear reached none
  refine ⟨?_, ?_, clear.pending, clear.unhandled⟩
  · cases quiet.waits rank with
    | between located | ready located | blocked located => simp [located]
  · exact List.eq_nil_of_length_eq_zero (by omega)

/-- **A full rank starves.** The programs come, through networks for which the receive buffers
suffice, to one in which a rank waits for a source that has nothing under way, while all its
receive buffers are taken. Then the cluster can come to a state out of which the rank gets no
further, whatever happens. -/
theorem can_starve (client : Client nprocs σ) (start : Fin nprocs → σ) (held : Fin nprocs → ℕ)
    {labels : List (Label nprocs)} {state : State nprocs σ} {rank source : Fin nprocs}
    {next : Message → σ} {parties : List (Fin nprocs)}
    {network network' : Network (Fin nprocs) Message (Progress nprocs σ)}
    (reached : (client.system start held).Reaches labels state)
    (tracks : Tracks labels state network)
    (execution : (client.program.system.restrict fun before _ _ => Fits before).Execution
      network parties network')
    (fits : Fits network')
    (awaits : client.command rank (network'.locals rank).program = .zrecv source next)
    (taken : demand network' rank = prepostDepth)
    (none : network'.channels (source, rank) = []) :
    ∃ more jammed, (client.system start held).Execution state more jammed ∧
      ∀ further after, (client.system start held).Execution jammed further after →
        after.locals rank = jammed.locals rank ∧ ¬ client.Finished after := by
  obtain ⟨front, mid, moves, tracks'⟩ := realizes_run reached tracks execution
  have reached' := reached.append moves.of_restrict
  obtain ⟨back, jammed, settling, tracks'', quiet⟩ := reaches_quiet reached' tracks'
  have reached'' := reached'.append settling.of_restrict
  have starved : Starved client rank source jammed := by
    refine ⟨⟨next, ?_⟩, quiet.dry reached'' tracks'' fits taken none⟩
    rw [← tracks''.program rank]
    exact awaits
  refine ⟨front ++ back, jammed, (moves.append settling).of_restrict, ?_⟩
  intro further after execution'
  obtain ⟨⟨⟨next', named⟩, -⟩, same⟩ := starved.execution reached'' execution'
  refine ⟨same, ?_⟩
  intro finished
  cases (finished.stopped rank).symm.trans named

end Clusters

end Ympi.Clients
