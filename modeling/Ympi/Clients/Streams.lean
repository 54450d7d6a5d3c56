import Ympi.Clients.Rounds

/-! # Streams

Scripts in which messages go one way only: a rank that receives takes all its messages from one
source and sends none itself. However far a source runs ahead of its receiver, the receive
buffers are taken by messages that the receiver will take, so nothing can get stuck as long as
the receiver gives its buffers back before it holds all of them.
-/

namespace Ympi.Clients

open LinkedList Foundation Messaging

variable {nprocs : ℕ}

/-- The process never takes a message while it holds all receive buffers. -/
def Op.Spares : List (Op nprocs) → ℕ → Prop
  | [], _ => True
  | .zrecv _ :: rest, held => held < prepostDepth ∧ Spares rest (held + 1)
  | .giveBack :: rest, _ => Spares rest 0
  | .zsend .. :: rest, held => Spares rest held
  | .zflush :: rest, held => Spares rest held

theorem Op.Spares.tail {op : Op nprocs} {rest : List (Op nprocs)} {held : ℕ}
    (spares : Spares (op :: rest) held) : Spares rest (heldAfter [op] held) := by
  cases op with
  | zrecv => exact spares.2
  | zsend | zflush | giveBack => exact spares

theorem Op.spares_append {front back : List (Op nprocs)} {held : ℕ} (first : Spares front held)
    (second : Spares back (heldAfter front held)) : Spares (front ++ back) held := by
  induction front generalizing held with
  | nil => exact second
  | cons op rest ih =>
      cases op with
      | zrecv => exact ⟨first.1, ih first.2 second⟩
      | zsend | zflush | giveBack => exact ih first second

/-- Messages go one way, from one source to each receiver, as many as it takes. A receiver that
takes a message does not hold all buffers yet. -/
structure OneWay (start : Fin nprocs → Script nprocs) (held : Fin nprocs → ℕ) : Prop where
  single : ∀ rank source other, .zrecv source ∈ (start rank).ops →
    .zrecv other ∈ (start rank).ops → source = other
  silent : ∀ rank source dest, .zrecv source ∈ (start rank).ops →
    Op.sendsTo dest (start rank).ops = 0
  balanced : ∀ source dest,
    Op.receivesFrom source (start dest).ops = Op.sendsTo dest (start source).ops
  room : ∀ rank, Op.Spares (start rank).ops (held rank)

/-- Scripts that take no message of a source do not receive from it. -/
theorem Op.receivesFrom_eq_zero {source : Fin nprocs} {ops : List (Op nprocs)}
    (none : .zrecv source ∉ ops) : receivesFrom source ops = 0 := by
  induction ops with
  | nil => rfl
  | cons op rest ih =>
      obtain ⟨other, others⟩ := not_or.mp (mt List.mem_cons.mpr none)
      rw [receivesFrom_cons, ih others, Nat.add_zero]
      cases op with
      | zrecv origin =>
          apply if_neg
          rintro rfl
          exact other rfl
      | zsend | zflush | giveBack => rfl

namespace Script

/-- Where the scripts are: each rank has come to a point of its script, and what is under way is
what has been sent and not yet received. -/
structure Flow (start : Fin nprocs → Script nprocs) (network : Net nprocs) : Prop where
  along : ∀ rank, remaining network rank <:+ (start rank).ops
  room : ∀ rank, Op.Spares (remaining network rank) (network.locals rank).held
  conserved : ∀ source dest, (network.channels (source, dest)).length +
    Op.sendsTo dest (remaining network source) = Op.receivesFrom source (remaining network dest)

section Flows

variable {start : Fin nprocs → Script nprocs} {held : Fin nprocs → ℕ}
  {network network' : Net nprocs} {rank source dest : Fin nprocs} {op : Op nprocs}

theorem Flow.begun (oneWay : OneWay start held) : Flow start (Client.begun start held) := by
  refine ⟨fun rank => List.suffix_rfl, oneWay.room, ?_⟩
  intro source dest
  rw [Client.begun, List.length_nil, Nat.zero_add]
  exact (oneWay.balanced source dest).symm

theorem Flow.step (flow : Flow start network) (made : Makes op rank network network') :
    Flow start network' := by
  constructor
  · intro other
    have along := flow.along other
    by_cases same : other = rank
    · subst same
      rw [made.remaining] at along
      exact (List.suffix_cons _ _).trans along
    · rwa [remaining, made.others other same]
  · intro other
    have room := flow.room other
    by_cases same : other = rank
    · subst same
      rw [made.remaining] at room
      rw [made.held]
      exact room.tail
    · rwa [remaining, made.others other same]
  · intro source dest
    have before := flow.conserved source dest
    have moved := made.channels source dest
    have sends : Op.sendsTo dest (remaining network source) =
        Op.sendsTo dest (remaining network' source) +
          if source = rank then op.messagesTo dest else 0 := by
      split
      next same =>
        subst same
        rw [made.remaining, Op.sendsTo_cons, Nat.add_comm]
      next apart => rw [remaining, remaining, made.others source apart, Nat.add_zero]
    have receives : Op.receivesFrom source (remaining network dest) =
        Op.receivesFrom source (remaining network' dest) +
          if dest = rank then op.messagesFrom source else 0 := by
      split
      next same =>
        subst same
        rw [made.remaining, Op.receivesFrom_cons, Nat.add_comm]
      next apart => rw [remaining, remaining, made.others dest apart, Nat.add_zero]
    omega

theorem Flow.execution {parties : List (Fin nprocs)} (oneWay : OneWay start held)
    (execution : (client nprocs).program.system.Execution (Client.begun start held) parties
      network) : Flow start network := by
  apply execution.invariant (motive := Flow start)
  · intro before party _ after step flow
    obtain ⟨op, made⟩ := makes_of_step step
    exact flow.step made
  · exact Flow.begun oneWay

/-- A channel whose source has no receiver is empty. -/
theorem Flow.channel_eq_nil (flow : Flow start network)
    (none : .zrecv source ∉ remaining network dest) : network.channels (source, dest) = [] := by
  have conserved := flow.conserved source dest
  rw [Op.receivesFrom_eq_zero none] at conserved
  exact List.length_eq_zero_iff.mp (by omega)

/-- What is left of a script belongs to it. -/
theorem Flow.mem_of_remaining (flow : Flow start network)
    (member : op ∈ remaining network rank) : op ∈ (start rank).ops :=
  (flow.along rank).mem member

/-- A rank that receives has no message under way. -/
theorem Flow.silent (flow : Flow start network) (oneWay : OneWay start held)
    (receives : .zrecv source ∈ (start rank).ops) (dest : Fin nprocs) :
    network.channels (rank, dest) = [] := by
  have conserved := flow.conserved rank dest
  have balanced := oneWay.balanced rank dest
  rw [oneWay.silent rank source dest receives] at balanced
  obtain ⟨front, whole⟩ := flow.along dest
  rw [← whole, Op.receivesFrom_append] at balanced
  exact List.length_eq_zero_iff.mp (by omega)

end Flows

end Script

section Progress

variable {start : Fin nprocs → Script nprocs} {held : Fin nprocs → ℕ}
  {labels : List (Label nprocs)} {state : State nprocs (Script nprocs)}
  {network : Script.Net nprocs} {rank source : Fin nprocs}

open Script

/-- In a quiet cluster the receiver of a stream has a message of its source, or all of them have
arrived and been taken. -/
theorem Script.Flow.arrives (flow : Flow start network) (oneWay : OneWay start held)
    (reached : ((client nprocs).system start held).Reaches labels state)
    (tracks : Tracks labels state network) (quiet : Quiet (client nprocs) state)
    {rest : List (Op nprocs)} (listed : remaining network rank = .zrecv source :: rest)
    (pending : (state.cluster rank).pending source = [])
    (unhandled : (state.cluster rank).unhandledFrom source = []) :
    network.channels (source, rank) = [] := by
  have receives : .zrecv source ∈ (start rank).ops := by
    apply flow.mem_of_remaining
    rw [listed]
    exact List.mem_cons_self
  have none (other : Fin nprocs) : ((state.cluster rank).pending other).length +
      ((state.cluster rank).unhandledFrom other).length = 0 := by
    by_cases same : other = source
    · rw [same, pending, unhandled]
      rfl
    · have clear := tracks.clear reached (flow.channel_eq_nil fun member =>
        same (oneWay.single rank other source (flow.mem_of_remaining member) receives))
      rw [clear.pending, clear.unhandled]
      rfl
  have stock := stock_eq reached rank (quiet.waits rank)
  rw [Finset.sum_eq_zero fun other _ => none other, ← tracks.held rank] at stock
  have room := flow.room rank
  rw [listed] at room
  have spare := room.1
  have buffers : (state.cluster rank).srq ≠ [] := by
    apply List.ne_nil_of_length_pos
    omega
  exact Clients.channel_eq_nil reached tracks pending unhandled
    ((quiet.delivered source rank).resolve_right buffers)

/-- A rank whose requests are delivered makes its next call, unless it waits for a message. -/
theorem Script.Flow.advances (flow : Flow start network) (oneWay : OneWay start held)
    (reached : ((client nprocs).system start held).Reaches labels state)
    (tracks : Tracks labels state network) (quiet : Quiet (client nprocs) state)
    (unsent : ∀ dest, (state.cluster rank).sendQueue dest = []) {op : Op nprocs}
    {rest : List (Op nprocs)} (listed : remaining network rank = op :: rest)
    (stocked : ∀ source, op = .zrecv source → network.channels (source, rank) ≠ []) :
    ∃ network' more after, (client nprocs).program.Step network rank network' ∧
      ((client nprocs).careful start held).Execution state more after ∧
      Tracks (labels ++ more) after network' := by
  obtain ⟨network', step⟩ := exists_step listed stocked
  obtain ⟨more, after, execution, tracks'⟩ :=
    (quiet.position reached rank unsent).realizes reached tracks step (by
      intro source next named pending unhandled
      have ops := (command_eq_zrecv named).1
      rw [← tracks.program rank] at ops
      exact flow.arrives oneWay reached tracks quiet ops pending unhandled)
      (quiet.underWay_eq_nil unsent)
  exact ⟨network', more, after, step, execution, tracks'⟩

/-- A receiver that has a message to take goes on; when all receivers wait, nothing is under way,
and a source goes on. -/
theorem Script.Flow.progress (flow : Flow start network) (oneWay : OneWay start held)
    (reached : ((client nprocs).system start held).Reaches labels state)
    (tracks : Tracks labels state network) (quiet : Quiet (client nprocs) state) :
    (client nprocs).Finished state ∨ ∃ rank network' more after,
      (client nprocs).program.Step network rank network' ∧
      ((client nprocs).careful start held).Execution state more after ∧
      Tracks (labels ++ more) after network' := by
  by_cases moves : ∃ rank origin op rest, .zrecv origin ∈ (start rank).ops ∧
      remaining network rank = op :: rest ∧
      ∀ source, op = .zrecv source → network.channels (source, rank) ≠ []
  · obtain ⟨rank, origin, op, rest, receives, listed, stocked⟩ := moves
    have unsent (dest : Fin nprocs) : (state.cluster rank).sendQueue dest = [] :=
      (tracks.clear reached (flow.silent oneWay receives dest)).unsent
    exact .inr ⟨rank, flow.advances oneWay reached tracks quiet unsent listed stocked⟩
  · have blocked (rank origin : Fin nprocs) (op : Op nprocs) (rest : List (Op nprocs))
        (receives : .zrecv origin ∈ (start rank).ops) (listed : remaining network rank = op :: rest) :
        ∃ source, op = .zrecv source ∧ network.channels (source, rank) = [] := by
      by_contra goesOn
      refine moves ⟨rank, origin, op, rest, receives, listed, ?_⟩
      intro source same empty
      exact goesOn ⟨source, same, empty⟩
    have empty (source dest : Fin nprocs) : network.channels (source, dest) = [] := by
      by_cases member : .zrecv source ∈ remaining network dest
      · have receives := flow.mem_of_remaining member
        obtain ⟨op, rest, listed⟩ := List.exists_cons_of_ne_nil (List.ne_nil_of_mem member)
        obtain ⟨other, rfl, none⟩ := blocked dest source op rest receives listed
        have taken : .zrecv other ∈ (start dest).ops := by
          apply flow.mem_of_remaining
          rw [listed]
          exact List.mem_cons_self
        rwa [oneWay.single dest source other receives taken]
      · exact flow.channel_eq_nil member
    have unsent (source dest : Fin nprocs) : (state.cluster source).sendQueue dest = [] :=
      (tracks.clear reached (empty source dest)).unsent
    by_cases ended : ∀ rank, remaining network rank = []
    · exact .inl (quiet.finished reached tracks unsent (stopped_of_remaining ended))
    · push Not at ended
      obtain ⟨rank, left⟩ := ended
      -- The rank itself goes on, or the source that it waits for.
      obtain ⟨actor, op, rest, listed, calls⟩ : ∃ actor op rest,
          remaining network actor = op :: rest ∧ ∀ source, op ≠ .zrecv source := by
        obtain ⟨op, rest, listed⟩ := List.exists_cons_of_ne_nil left
        by_cases waits : ∃ source, op = .zrecv source
        · obtain ⟨source, rfl⟩ := waits
          have conserved := flow.conserved source rank
          rw [empty, listed, Op.receivesFrom_cons, Op.messagesFrom, if_pos rfl] at conserved
          have more : remaining network source ≠ [] := by
            intro none
            rw [none, Op.sendsTo_nil, List.length_nil] at conserved
            omega
          obtain ⟨op', rest', listed'⟩ := List.exists_cons_of_ne_nil more
          refine ⟨source, op', rest', listed', ?_⟩
          rintro other rfl
          have receives : .zrecv other ∈ (start source).ops := by
            apply flow.mem_of_remaining
            rw [listed']
            exact List.mem_cons_self
          have silent := oneWay.silent source other rank receives
          obtain ⟨front, whole⟩ := flow.along source
          rw [← whole, Op.sendsTo_append] at silent
          simp only [List.length_nil] at conserved
          omega
        · exact ⟨rank, op, rest, listed, fun source same => waits ⟨source, same⟩⟩
      exact .inr ⟨actor, flow.advances oneWay reached tracks quiet (unsent actor) listed
        fun source same => absurd same (calls source)⟩

/-- The number of calls that the ranks have still to make. -/
def Script.callsLeft (network : Net nprocs) : ℕ :=
  ∑ rank, (remaining network rank).length

theorem Script.Makes.callsLeft_lt {network' : Net nprocs} {op : Op nprocs}
    (made : Makes op rank network network') : callsLeft network' < callsLeft network := by
  apply Finset.sum_lt_sum
  · intro other _
    by_cases same : other = rank
    · rw [same, made.remaining]
      exact Nat.le_succ _
    · rw [Script.remaining, Script.remaining, made.others other same]
  · refine ⟨rank, Finset.mem_univ rank, ?_⟩
    rw [made.remaining]
    exact Nat.lt_succ_self _

/-- **Streams come to their ends.** One-way scripts can always come to their ends, however far
the sources have run ahead and wherever messages wait for receive buffers. -/
theorem OneWay.finishes (oneWay : OneWay start held)
    (reached : ((client nprocs).system start held).Reaches labels state) :
    ∃ more after, ((client nprocs).careful start held).Execution state more after ∧
      (client nprocs).Finished after := by
  obtain ⟨parties, network, execution, tracks⟩ := reaches_tracks reached
  have flow := Flow.execution oneWay execution
  clear execution
  induction bound : callsLeft network using Nat.strongRecOn generalizing labels state network with
  | ind calls ih =>
      subst bound
      obtain ⟨settling, quiet, execution, tracks', calm⟩ := reaches_quiet reached tracks
      have reached' := reached.append execution.of_restrict
      rcases flow.progress oneWay reached' tracks' calm with
        finished | ⟨rank, network', more, mid, step, further, tracks''⟩
      · exact ⟨settling, quiet, execution, finished⟩
      · obtain ⟨op, made⟩ := makes_of_step step
        obtain ⟨rest, after, last, finished⟩ := ih _ made.callsLeft_lt
          (reached'.append further.of_restrict) network' tracks'' (flow.step made) rfl
        exact ⟨settling ++ more ++ rest, after, (execution.append further).append last, finished⟩

end Progress

end Ympi.Clients
