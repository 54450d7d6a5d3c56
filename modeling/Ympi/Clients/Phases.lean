import Ympi.Clients.Jam
import Ympi.Clients.Rounds

/-! # Programs with barriers

A job runs its scripts phase by phase: no rank starts with a phase before every rank has
returned from its last call in the one before. When each phase leaves no message under way, the
ranks are at rest between them, so what holds of a phase on its own holds of it in a job.
-/

namespace Ympi.Clients

open LinkedList Foundation Messaging

variable {nprocs : ℕ} {σ : Type}

section Ends

variable {client : Client nprocs σ} {start : Fin nprocs → σ} {held : Fin nprocs → ℕ}
  {labels : List (Label nprocs)} {state : State nprocs σ}
  {network : Network (Fin nprocs) Message (Progress nprocs σ)}

/-- At the end of its program a rank has flushed. -/
theorem Client.Finished.settled (finished : client.Finished state)
    (reached : (client.system start held).Reaches labels state) (rank peer : Fin nprocs) :
    (state.cluster rank).outstanding peer = 0 := by
  obtain ⟨ret, idle⟩ := finished.idle rank
  have room := (reaches_sound reached rank).room.resolve_left fun flushing =>
    flushing.not_idle ret idle
  have full := client.ahead_stop (finished.stopped rank) peer
  have bounded := room peer
  omega

/-- **Rest.** Ranks that are at the ends of their programs are at rest when no message is under
way. -/
theorem Client.Finished.rested (finished : client.Finished state)
    (reached : (client.system start held).Reaches labels state)
    (tracks : Tracks labels state network) (empty : ∀ channel, network.channels channel = []) :
    ∃ setup, Rested (fun rank => (network.locals rank).held) setup state.cluster := by
  obtain ⟨setup, begun, rested, execution⟩ := reaches_rested reached
  have settled := finished.settled reached
  have clear (rank source : Fin nprocs) : Clear state source rank :=
    tracks.clear reached (empty (source, rank))
  refine ⟨setup ++ labels, rested.reached.append execution, ?_, ?_, finished.idle, settled, ?_,
    fun rank source => (clear rank source).pending, ?_⟩
  · intro rank action member
    rw [nodeHistory, List.flatMap_append] at member
    rcases List.mem_append.mp member with early | late
    · exact rested.fits rank action early
    · exact (reaches_lawful reached rank action late).fits
  · intro rank wr member
    rw [nodeHistory, List.flatMap_append] at member
    rcases List.mem_append.mp member with early | late
    · exact rested.posted rank wr early
    · exact (reaches_lawful reached rank _ late).posted wr rfl
  · intro rank
    rw [List.eq_nil_iff_forall_not_mem]
    intro wc member
    obtain ⟨history, ready, -⟩ := reaches_rank reached rank
    have waiting : wc ∈ (state.cluster rank).unhandled := List.mem_append_right _ member
    rcases Node.reaches_knows ready wc waiting with ⟨peer, isSend⟩ | ⟨source, isFrom⟩
    · have none := settled rank peer
      have some : 0 < (state.cluster rank).unhandled.countP (Wc.isSendTo peer) :=
        List.countP_pos_iff.mpr ⟨wc, waiting, isSend⟩
      rw [Node.outstanding] at none
      omega
    · have listed : wc ∈ (state.cluster rank).unhandledFrom source :=
        List.mem_filter.mpr ⟨waiting, decide_eq_true isFrom⟩
      rw [(clear rank source).unhandled] at listed
      cases listed
  · intro rank
    obtain ⟨ret, idle⟩ := finished.idle rank
    rw [tracks.held rank, holding_of_ne (by simp [idle])]

end Ends

/-- The scripts of ranks that hold `held` buffers at the start can come to their ends, where no
message is under way and the ranks hold `held'` buffers, and they never need more receive
buffers than there are. -/
structure Completes (scripts : Fin nprocs → Script nprocs) (held held' : Fin nprocs → ℕ) :
    Prop where
  provides : Provides (Script.client nprocs) scripts held
  ends : ∃ parties final,
    (Script.client nprocs).program.system.Execution (Client.begun scripts held) parties final ∧
      (∀ rank, Script.remaining final rank = []) ∧ (∀ channel, final.channels channel = []) ∧
      ∀ rank, (final.locals rank).held = held' rank

/-- A phase of a job: the script of each rank. -/
abbrev Phase (nprocs : ℕ) := Fin nprocs → Script nprocs

/-- A phase in which no rank calls the messaging library. -/
def Phase.idle : Phase nprocs := fun _ => .done

theorem Completes.idle (held : Fin nprocs → ℕ) (few : ∀ rank, held rank ≤ prepostDepth) :
    Completes Phase.idle held held := by
  refine ⟨Script.provides_of_total ?_, [], _, .refl _, fun _ => rfl, fun _ => rfl, fun _ => rfl⟩
  intro rank
  simp [Phase.idle, Script.done, few rank]

/-- The phases complete one after the other. -/
inductive CompletesAll : List (Phase nprocs) → (Fin nprocs → ℕ) → (Fin nprocs → ℕ) → Prop where
  | nil (held : Fin nprocs → ℕ) : CompletesAll [] held held
  | cons {phase : Phase nprocs} {rest : List (Phase nprocs)} {held mid held' : Fin nprocs → ℕ} :
      Completes phase held mid → CompletesAll rest mid held' →
        CompletesAll (phase :: rest) held held'

theorem CompletesAll.append {front back : List (Phase nprocs)} {held mid held' : Fin nprocs → ℕ}
    (first : CompletesAll front held mid) (second : CompletesAll back mid held') :
    CompletesAll (front ++ back) held held' := by
  induction first with
  | nil => exact second
  | cons completes _ ih => exact .cons completes (ih second)

theorem CompletesAll.of_forall {phases : List (Phase nprocs)} {held : Fin nprocs → ℕ}
    (completes : ∀ phase ∈ phases, Completes phase held held) :
    CompletesAll phases held held := by
  induction phases with
  | nil => exact .nil held
  | cons phase rest ih =>
      exact .cons (completes phase List.mem_cons_self)
        (ih fun other member => completes other (List.mem_cons_of_mem _ member))

/-- A job: the cluster, the scripts of the current phase, and the phases still to come. -/
structure Job (nprocs : ℕ) where
  cluster : Cluster nprocs
  scripts : Phase nprocs
  later : List (Phase nprocs)

namespace Job

/-- The job within its current phase. -/
def state (job : Job nprocs) : State nprocs (Script nprocs) where
  cluster := job.cluster
  locals := job.scripts

/-- A step within a phase, or the barrier before the next one. -/
inductive Step : Job nprocs → Option (Label nprocs) → Job nprocs → Prop where
  | within {job : Job nprocs} {label : Label nprocs} {after : State nprocs (Script nprocs)} :
      (Script.client nprocs).Step job.state label after →
        Step job (some label) { job with cluster := after.cluster, scripts := after.locals }
  | barrier {job : Job nprocs} {next : Phase nprocs} {rest : List (Phase nprocs)} :
      job.later = next :: rest → (Script.client nprocs).Finished job.state →
        Step job none { job with scripts := next, later := rest }

/-- The job before its first barrier, on ranks that have queue pairs to those that they send to
in some phase. -/
structure Initial (phases : List (Phase nprocs)) (job : Job nprocs) : Prop where
  rested : ∃ setup, Rested (fun _ => 0) setup job.cluster
  scripts : job.scripts = Phase.idle
  later : job.later = phases
  linked : ∀ phase ∈ phases, ∀ rank, ∀ op ∈ (phase rank).ops, ∀ peer, op.SendsTo peer →
    Linked job.cluster rank peer

/-- The transition system of the job. -/
def system (phases : List (Phase nprocs)) :
    LabelledSystem (Job nprocs) (Option (Label nprocs)) where
  Initial := Initial phases
  Step := Step

/-- The job is through with its last phase. -/
structure Done (job : Job nprocs) : Prop where
  later : job.later = []
  finished : (Script.client nprocs).Finished job.state

/-- Fully connected ranks that have been through `YMPI_Init` can start a job. -/
theorem exists_initial (phases : List (Phase nprocs)) (small : nprocs ≤ qpnHashSize) :
    ∃ job, Initial phases job := by
  obtain ⟨setup, cluster, rested, kept⟩ :=
    exists_rested (fun _ => QpTable.direct nprocs small) (fun _ _ => 0) fun _ => []
  have connected (rank peer : Fin nprocs) : (cluster rank).ctx.qps.qpList peer ≠ none := by
    rw [(kept rank).1]
    exact Option.some_ne_none _
  refine ⟨⟨cluster, Phase.idle, phases⟩, ⟨setup, rested⟩, rfl, rfl, ?_⟩
  intro phase _ rank op _ peer _
  exact ⟨connected rank peer, connected peer rank⟩

section Runs

variable {phases : List (Phase nprocs)} {job job' : Job nprocs}

/-- What the phase can do the job can do. -/
theorem execution_within {start : Phase nprocs} {held : Fin nprocs → ℕ}
    {labels : List (Label nprocs)} {after : State nprocs (Script nprocs)}
    (execution : ((Script.client nprocs).system start held).Execution job.state labels after) :
    (system phases).Execution job (labels.map some)
      { job with cluster := after.cluster, scripts := after.locals } := by
  induction execution with
  | refl => exact .refl job
  | @snoc mid target labels label _ step ih =>
      rw [List.map_append]
      have next : Step { job with cluster := mid.cluster, scripts := mid.locals } (some label)
          { job with cluster := target.cluster, scripts := target.locals } := .within step
      exact .snoc ih next

/-- The current phase is one of the job, or what comes before its first barrier. It has been
reached from its start and completes, and the ranks have the queue pairs for those to come. -/
structure Current (phases : List (Phase nprocs)) (held : Fin nprocs → ℕ) (job : Job nprocs) :
    Prop where
  reached : ∃ start before labels, (start = Phase.idle ∨ start ∈ phases) ∧
    ((Script.client nprocs).system start before).Reaches labels job.state ∧
      Completes start before held
  later : ∀ phase ∈ job.later, phase ∈ phases
  linked : ∀ phase ∈ job.later, ∀ rank, ∀ op ∈ (phase rank).ops, ∀ peer, op.SendsTo peer →
    Linked job.cluster rank peer

/-- At its end the phase leaves the ranks at rest. -/
theorem Current.rested {held : Fin nprocs → ℕ} (current : Current phases held job)
    (finished : (Script.client nprocs).Finished job.state) :
    ∃ setup, Rested held setup job.cluster := by
  obtain ⟨start, before, labels, -, reached, completes⟩ := current.reached
  obtain ⟨parties, final, whole, stopped, empty, holds⟩ := completes.ends
  obtain ⟨front, network, begun, tracks⟩ := reaches_tracks reached
  obtain ⟨back, -, rest⟩ :=
    (ChannelProgram.conflictFree (Script.client nprocs).program).finishes whole
      (Script.stopped_of_remaining stopped).final begun
  cases (tracks.final finished).stays rest
  obtain ⟨setup, rested⟩ := finished.rested reached tracks empty
  have same : (fun rank => (final.locals rank).held) = held := funext holds
  rw [same] at rested
  exact ⟨setup, rested⟩

theorem Initial.current (initial : Initial phases job) : Current phases (fun _ => 0) job := by
  refine ⟨⟨Phase.idle, fun _ => 0, [], Or.inl rfl, ?_, .idle _ fun _ => Nat.zero_le _⟩, ?_, ?_⟩
  · apply LabelledSystem.Reaches.initial
    refine ⟨initial.rested, initial.scripts, ?_⟩
    intro rank peer sends
    obtain ⟨op, member, -⟩ := sends
    cases member
  · rw [initial.later]
    exact fun _ member => member
  · rw [initial.later]
    exact initial.linked

/-- The next phase begins at rest. -/
theorem Current.next {held mid : Fin nprocs → ℕ} {next : Phase nprocs}
    {rest : List (Phase nprocs)} (current : Current phases held job)
    (finished : (Script.client nprocs).Finished job.state) (later : job.later = next :: rest)
    (completes : Completes next held mid) :
    Current phases mid { job with scripts := next, later := rest } := by
  have member : next ∈ job.later := by
    rw [later]
    exact List.mem_cons_self
  have others : ∀ phase ∈ rest, phase ∈ job.later := by
    intro phase listed
    rw [later]
    exact List.mem_cons_of_mem _ listed
  refine ⟨⟨next, held, [], Or.inr (current.later next member), ?_, completes⟩, ?_, ?_⟩
  · apply LabelledSystem.Reaches.initial
    refine ⟨current.rested finished, rfl, ?_⟩
    rintro rank peer ⟨op, listed, sends⟩
    exact current.linked next member rank op listed peer sends
  · exact fun phase listed => current.later phase (others phase listed)
  · exact fun phase listed => current.linked phase (others phase listed)

/-- A step within the phase. -/
theorem Current.within {held : Fin nprocs → ℕ} {label : Label nprocs}
    {after : State nprocs (Script nprocs)} (current : Current phases held job)
    (step : (Script.client nprocs).Step job.state label after) :
    Current phases held { job with cluster := after.cluster, scripts := after.locals } := by
  obtain ⟨start, before, labels, listed, reached, completes⟩ := current.reached
  refine ⟨⟨start, before, _, listed, reached.step step, completes⟩, current.later, ?_⟩
  intro phase member rank op listed peer sends
  exact (current.linked phase member rank op listed peer sends).step step.cluster

/-- The phase of a reached job has been reached, and the others are still to come. -/
theorem reaches_current {held : Fin nprocs → ℕ} {labels : List (Option (Label nprocs))}
    (chain : CompletesAll phases (fun _ => 0) held) (reached : (system phases).Reaches labels job) :
    ∃ mid, Current phases mid job ∧ CompletesAll job.later mid held := by
  refine reached.induction (motive := fun _ job =>
    ∃ mid, Current phases mid job ∧ CompletesAll job.later mid held) ?_ ?_
  · intro first initial
    refine ⟨fun _ => 0, initial.current, ?_⟩
    rw [initial.later]
    exact chain
  · rintro labels before label after _ ⟨mid, current, rest⟩ step
    cases step with
    | within step => exact ⟨mid, current.within step, rest⟩
    | barrier later finished =>
        rw [later] at rest
        cases rest with
        | cons completes others => exact ⟨_, current.next finished later completes, others⟩

/-- The current phase can come to its end. -/
theorem Current.can_finish {held : Fin nprocs → ℕ} (current : Current phases held job) :
    ∃ more after, (system phases).Execution job more after ∧ after.later = job.later ∧
      (Script.client nprocs).Finished after.state ∧ Current phases held after := by
  obtain ⟨start, before, labels, listed, reached, completes⟩ := current.reached
  obtain ⟨parties, final, whole, stopped, -, -⟩ := completes.ends
  obtain ⟨more, after, execution, finished⟩ := Clients.can_finish _ start before completes.provides
    ⟨parties, final, whole, Script.stopped_of_remaining stopped⟩ reached
  have execution := execution.of_restrict
  refine ⟨_, _, execution_within execution, rfl, finished,
    ⟨start, before, _, listed, reached.append execution, completes⟩, current.later, ?_⟩
  intro phase member rank op listed peer sends
  apply execution.invariant (motive := fun state => Linked state.cluster rank peer)
  · intro before label _ after step linked
    exact linked.step (Client.Step.cluster step)
  · exact current.linked phase member rank op listed peer sends

/-- **Through the phases.** A job whose phases complete can always come to the end of the last
of them. -/
theorem can_advance {front rest : List (Phase nprocs)} {held held' : Fin nprocs → ℕ}
    (current : Current phases held job) (later : job.later = front ++ rest)
    (chain : CompletesAll front held held') :
    ∃ more after, (system phases).Execution job more after ∧ after.later = rest ∧
      (Script.client nprocs).Finished after.state ∧ Current phases held' after := by
  induction front generalizing job held with
  | nil =>
      cases chain
      obtain ⟨more, after, execution, same, finished, current'⟩ := current.can_finish
      exact ⟨more, after, execution, same.trans later, finished, current'⟩
  | cons phase front ih =>
      cases chain with
      | cons completes others =>
          obtain ⟨first, ended, execution, same, finished, current'⟩ := current.can_finish
          have next := current'.next finished (same.trans later) completes
          obtain ⟨second, after, further, last⟩ := ih next rfl others
          have crossed : Step ended none { ended with scripts := phase, later := front ++ rest } :=
            .barrier (same.trans later) finished
          exact ⟨first ++ none :: second, after, execution.append (.cons crossed further), last⟩

/-- **Completion.** Every reached state of a job whose phases complete can come to the end of
the job. -/
theorem can_finish {held : Fin nprocs → ℕ} {labels : List (Option (Label nprocs))}
    (chain : CompletesAll phases (fun _ => 0) held) (reached : (system phases).Reaches labels job) :
    ∃ more after, (system phases).Execution job more after ∧ after.Done := by
  obtain ⟨mid, current, rest⟩ := reaches_current chain reached
  obtain ⟨more, after, execution, last, finished, -⟩ :=
    can_advance current (List.append_nil job.later).symm rest
  exact ⟨more, after, execution, last, finished⟩

/-- A job whose phase never comes to its end stays in the phase. -/
theorem stays_within {start : Phase nprocs} {held : Fin nprocs → ℕ}
    {more : List (Option (Label nprocs))}
    (never : ∀ further after,
      ((Script.client nprocs).system start held).Execution job.state further after →
        ¬ (Script.client nprocs).Finished after)
    (execution : (system phases).Execution job more job') :
    ∃ further, ((Script.client nprocs).system start held).Execution job.state further job'.state := by
  induction execution with
  | refl => exact ⟨[], .refl _⟩
  | snoc _ step ih =>
      obtain ⟨further, within⟩ := ih
      cases step with
      | within step => exact ⟨_, .snoc within step⟩
      | barrier later finished => exact absurd finished (never further _ within)

/-- **A jam.** A job comes to a phase in which a rank can starve: then it can come to a state
out of which it is never done. -/
theorem can_jam {front back : List (Phase nprocs)} {jam : Phase nprocs}
    {held : Fin nprocs → ℕ} (chain : CompletesAll front (fun _ => 0) held)
    {job : Job nprocs} (initial : Initial (front ++ jam :: back) job)
    {parties : List (Fin nprocs)} {network : Script.Net nprocs}
    (execution : ((Script.client nprocs).program.system.restrict
      fun before _ _ => Fits before).Execution (Client.begun jam held) parties network)
    (fits : Fits network) {rank source : Fin nprocs} {rest : List (Op nprocs)}
    (awaits : Script.remaining network rank = .zrecv source :: rest)
    (taken : demand network rank = prepostDepth)
    (empty : network.channels (source, rank) = []) :
    ∃ more jammed, (system (front ++ jam :: back)).Execution job more jammed ∧
      ∀ further after, (system (front ++ jam :: back)).Execution jammed further after →
        ¬ after.Done := by
  obtain ⟨first, ended, begun, last, finished, current⟩ :
      ∃ first ended, (system (front ++ jam :: back)).Execution job first ended ∧
        ended.later = jam :: back ∧ (Script.client nprocs).Finished ended.state ∧
        Current (front ++ jam :: back) held ended := can_advance initial.current initial.later chain
  have crossed : Step ended none { ended with scripts := jam, later := back } :=
    .barrier last finished
  have start : (Script.client nprocs).Initial jam held
      (Job.state { ended with scripts := jam, later := back }) := by
    refine ⟨current.rested finished, rfl, ?_⟩
    intro rank peer sends
    obtain ⟨op, member, sendsTo⟩ := sends
    exact current.linked jam (by rw [last]; exact List.mem_cons_self) rank op member peer sendsTo
  have listed : (network.locals rank).program.ops = .zrecv source :: rest := awaits
  have command : (Script.client nprocs).command rank (network.locals rank).program =
      .zrecv source fun _ => (network.locals rank).program.tail := by
    simp only [Script.client, Script.command, listed]
  obtain ⟨moves, jammed, execution', forever⟩ := can_starve (Script.client nprocs) jam held
    (.initial start) start.tracks execution fits command taken empty
  refine ⟨first ++ none :: moves.map some, _,
    begun.append (.cons crossed (execution_within execution')), ?_⟩
  intro further after further' done
  obtain ⟨labels, within⟩ := stays_within (fun labels state other => (forever labels state other).2)
    further'
  exact (forever labels _ within).2 done.finished

/-- **Messages ahead.** A phase can jam when the ranks can send ahead, before they receive
anything, as many messages as a rank has receive buffers for, and the rank then waits for one that
has sent it none. -/
theorem can_jam_ahead {front back : List (Phase nprocs)} {jam : Phase nprocs}
    {held : Fin nprocs → ℕ} (chain : CompletesAll front (fun _ => 0) held)
    {job : Job nprocs} (initial : Initial (front ++ jam :: back) job)
    {ahead rest : Fin nprocs → List (Op nprocs)}
    (parts : ∀ rank, (jam rank).ops = ahead rank ++ rest rank)
    (sending : ∀ rank source, Op.receivesFrom source (ahead rank) = 0)
    (keeps : ∀ rank, Op.heldAfter (ahead rank) (held rank) = held rank)
    (few : ∀ rank, held rank + ∑ source, Op.sendsTo rank (ahead source) ≤ prepostDepth)
    {rank source : Fin nprocs} {others : List (Op nprocs)}
    (awaits : rest rank = .zrecv source :: others)
    (full : held rank + ∑ origin, Op.sendsTo rank (ahead origin) = prepostDepth)
    (none : Op.sendsTo rank (ahead source) = 0) :
    ∃ more jammed, (system (front ++ jam :: back)).Execution job more jammed ∧
      ∀ further after, (system (front ++ jam :: back)).Execution jammed further after →
        ¬ after.Done := by
  have listed (actor : Fin nprocs) :
      Script.remaining (Client.begun jam held) actor = ahead actor ++ rest actor := parts actor
  obtain ⟨parties, network, execution, left, holds, carried⟩ :=
    Script.exists_full_round listed fun actor origin => by
      rw [sending]
      exact Nat.zero_le _
  have waiting (origin dest : Fin nprocs) :
      (network.channels (origin, dest)).length = Op.sendsTo dest (ahead origin) := by
    have moved := carried origin dest
    rw [sending, Nat.add_zero] at moved
    exact moved.trans (Nat.zero_add _)
  have committed (actor : Fin nprocs) :
      Script.committed network (Client.begun jam held) actor ≤ prepostDepth := by
    have empty : demand (Client.begun jam held) actor = held actor := by
      simp [demand, Client.begun]
    have unsent (origin : Fin nprocs) :
        Op.sendsTo actor (Script.remaining (Client.begun jam held) origin) -
          Op.sendsTo actor (Script.remaining network origin) = Op.sendsTo actor (ahead origin) := by
      rw [listed, left, Op.sendsTo_append, Nat.add_sub_cancel]
    rw [Script.committed, empty, Finset.sum_congr rfl fun origin _ => unsent origin]
    exact few actor
  obtain ⟨fitting, fits⟩ := Script.fits_of_committed committed execution
  have taken : demand network rank = prepostDepth := by
    rw [demand, holds, Finset.sum_congr rfl fun origin _ => waiting origin rank]
    exact (congrArg (· + _) (keeps rank)).trans full
  have empty : network.channels (source, rank) = [] :=
    List.eq_nil_of_length_eq_zero ((waiting source rank).trans none)
  exact can_jam chain initial fitting fits ((left rank).trans awaits) taken empty

end Runs

end Job

end Ympi.Clients
