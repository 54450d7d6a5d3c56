import Ympi.Clients.Phases
import Ympi.Messaging.CompletionQueueBound

/-! # The completion queue of a client

A process has as many completions on its queue as requests outstanding, and one for each receive
buffer in use. A program that flushes soon enough therefore never overruns the queue, however
many queue pairs complete on it.
-/

namespace Ympi.Clients

open LinkedList Foundation Messaging

variable {nprocs : ℕ} {σ : Type}

/-- The requests that a program posts until it flushes, and the programs for which they are at
most `cap`. -/
structure Load (client : Client nprocs σ) (cap : ℕ) where
  load : Fin nprocs → σ → ℕ
  light : Fin nprocs → σ → Prop
  light_next : ∀ {rank state next}, light rank state → (client.command rank state).Next next →
    light rank next
  load_le : ∀ {rank state}, light rank state → load rank state ≤ cap
  load_zsend : ∀ {rank state buffer offset payload dest next},
    client.command rank state = .zsend buffer offset payload dest next →
      load rank next + 1 ≤ load rank state
  load_zrecv : ∀ {rank state source next}, client.command rank state = .zrecv source next →
    ∀ message, load rank (next message) ≤ load rank state
  load_giveBack : ∀ {rank state next}, client.command rank state = .giveBack next →
    load rank next ≤ load rank state

/-- All requests of a process that are outstanding. -/
def unsettled (node : Node nprocs) : ℕ :=
  ∑ peer, node.outstanding peer

/-- The requests outstanding are at most `cap`. Unless the process is flushing, there is room for
what comes before the next flush. -/
structure Spacious {client : Client nprocs σ} {cap : ℕ} (load : Load client cap)
    (rank : Fin nprocs) (node : Node nprocs) (program : σ) : Prop where
  light : load.light rank program
  few : unsettled node ≤ cap
  room : node.pc.Serves .zflush ∨ unsettled node + load.load rank program ≤ cap

section Nodes

variable {client : Client nprocs σ} {cap : ℕ} {load : Load client cap} {rank : Fin nprocs}
  {node node' : Node nprocs} {program : σ} {action : Action nprocs}
  {history : List (Action nprocs)}

/-- A post adds its request. -/
theorem unsettled_le_succ {call : PostCall nprocs} {outcome : PostOutcome} {data : List UInt8}
    (formed : node.Formed) (step : Node.Step node (.post call outcome data) node') :
    unsettled node' ≤ unsettled node + 1 := by
  have total := Node.sum_length_accepted node (.post call outcome data)
  have single : (Action.post call outcome data).posts ≤ 1 := by
    cases outcome <;> simp [Action.posts]
  have each := Finset.sum_le_sum fun peer (_ : peer ∈ Finset.univ) =>
    (Nat.le_add_left _ _).trans_eq (step.outstanding_ledger formed peer).symm
  rw [Finset.sum_add_distrib] at each
  unfold unsettled
  omega

theorem unsettled_le (formed : node.Formed) (step : Node.Step node action node')
    (quiet : ∀ call outcome data, action ≠ .post call outcome data) :
    unsettled node' ≤ unsettled node :=
  Finset.sum_le_sum fun peer _ => outstanding_le formed step quiet peer

/-- The completions of a process are those of its requests and those of its receive buffers. -/
theorem length_unhandled_le (knows : ∀ wc ∈ node.unhandled, node.Knows wc) :
    node.unhandled.length ≤ unsettled node + (recvIds node.unhandled).length := by
  have counted (wcs : List Wc) (known : ∀ wc ∈ wcs, node.Knows wc) :
      wcs.length ≤ ∑ peer : Fin nprocs, wcs.countP (Wc.isSendTo peer) + (recvIds wcs).length := by
    induction wcs with
    | nil => exact Nat.zero_le _
    | cons wc rest ih =>
        have others := ih fun other member => known other (List.mem_cons_of_mem _ member)
        have whole : recvIds (wc :: rest) = recvIds [wc] ++ recvIds rest :=
          recvIds_append [wc] rest
        simp only [List.length_cons, List.countP_cons, Finset.sum_add_distrib, whole,
          List.length_append]
        rcases known wc List.mem_cons_self with ⟨peer, isSend⟩ | ⟨source, isFrom⟩
        · have one := Finset.single_le_sum (f := fun peer : Fin nprocs =>
            if Wc.isSendTo peer wc = true then 1 else 0) (fun _ _ => Nat.zero_le _)
            (Finset.mem_univ peer)
          simp only [if_pos isSend] at one
          omega
        · have one : (recvIds [wc]).length = 1 := by
            simp [recvIds, isFrom.1]
          omega
  refine (counted _ knows).trans (Nat.add_le_add_right ?_ _)
  exact Finset.sum_le_sum fun peer _ => Nat.le_add_left _ _

/-- A program stays light. -/
theorem Load.light_advance (load : Load client cap) (light : load.light rank program)
    (action : Action nprocs) : load.light rank (client.advance rank program action) := by
  rcases advance_cases client rank program action with same | goesOn
  · rw [same]
    exact light
  · exact load.light_next light goesOn

/-- Between two flushes a program posts what it has announced. -/
theorem Load.load_advance (load : Load client cap)
    (quiet : ∀ call outcome data, action ≠ .post call outcome data) (unflushed : action ≠ .zflush) :
    load.load rank (client.advance rank program action) ≤ load.load rank program := by
  unfold Client.advance
  split
  next => exact absurd rfl (quiet _ _ _)
  next => exact absurd rfl unflushed
  next named => exact load.load_zrecv named _
  next named => exact load.load_giveBack named
  next => exact le_rfl

/-- A post takes the room that was left for it. -/
theorem Spacious.room_post {call : PostCall nprocs} {outcome : PostOutcome} {data : List UInt8}
    (spacious : Spacious load rank node program) (formed : node.Formed)
    (follows : client.Follows rank program node (.post call outcome data))
    (step : Node.Step node (.post call outcome data) node') : unsettled node' +
      load.load rank (client.advance rank program (.post call outcome data)) ≤ cap := by
  obtain ⟨ret, idle⟩ := post_idle step
  have before := spacious.room.resolve_left fun flushing => flushing.not_idle ret idle
  rcases follows.enters ret idle with begins | ⟨mem, same⟩
  · obtain ⟨buffer, offset, payload, dest, next, named, rfl, rfl⟩ := begins.eq_zsend
    have announced := load.load_zsend named
    have added := unsettled_le_succ formed step
    simp only [Client.advance, named]
    omega
  · cases same

/-- A flush makes room for as much as a program may announce. -/
theorem Spacious.room_quiet (spacious : Spacious load rank node program)
    (reached : (Node.system nprocs).Reaches history node) (step : Node.Step node action node')
    (polls : action ≠ .pollError) (quiet : ∀ call outcome data, action ≠ .post call outcome data)
    (unflushed : action ≠ .zflush) : node'.pc.Serves .zflush ∨
      unsettled node' + load.load rank (client.advance rank program action) ≤ cap := by
  have fewer := unsettled_le (Node.reaches_formed reached) step quiet
  by_cases flushing : node.pc.Serves .zflush
  · rcases step.serves flushing with returned | goesOn
    · apply Or.inr
      have settled : unsettled node = 0 := Finset.sum_eq_zero fun peer _ =>
        Node.reaches_settled reached (flush_ends flushing step polls returned) peer
      have bounded := load.load_le (load.light_advance spacious.light action)
      omega
    · exact Or.inl goesOn
  · apply Or.inr
    have before := spacious.room.resolve_left flushing
    have announced : load.load rank (client.advance rank program action) ≤ _ :=
      load.load_advance quiet unflushed
    omega

theorem Spacious.process (spacious : Spacious load rank node program)
    (reached : (Node.system nprocs).Reaches history node)
    (follows : client.Follows rank program node action) (step : Node.Step node action node') :
    Spacious load rank node' (client.advance rank program action) := by
  have light := load.light_advance spacious.light action
  have formed := Node.reaches_formed reached
  cases action with
  | post =>
      have room := spacious.room_post formed follows step
      exact ⟨light, (Nat.le_add_right _ _).trans room, Or.inr room⟩
  | zflush =>
      have fewer := (unsettled_le formed step (by simp)).trans spacious.few
      cases step with
      | zflush => exact ⟨light, fewer, Or.inl (.head rfl)⟩
  | _ =>
      have fewer := (unsettled_le formed step (by simp)).trans spacious.few
      exact ⟨light, fewer, spacious.room_quiet reached step follows.polls (by simp) (by simp)⟩

theorem Spacious.hardware (spacious : Spacious load rank node program) (formed : node.Formed)
    (hardware : action.isProcess = false) (step : Node.Step node action node') :
    Spacious load rank node' program := by
  have fewer := unsettled_le formed step (by rintro call outcome data rfl; cases hardware)
  refine ⟨spacious.light, fewer.trans spacious.few, ?_⟩
  rw [step.pc_eq hardware]
  refine spacious.room.imp id ?_
  intro room
  omega

end Nodes

section States

variable {client : Client nprocs σ} {cap : ℕ} {start : Fin nprocs → σ} {held : Fin nprocs → ℕ}
  {labels : List (Label nprocs)} {state : State nprocs σ}

theorem reaches_spacious (load : Load client cap) (light : ∀ rank, load.light rank (start rank))
    (reached : (client.system start held).Reaches labels state) (rank : Fin nprocs) :
    Spacious load rank (state.cluster rank) (state.locals rank) := by
  revert rank
  refine reached.induction (motive := fun _ state =>
    ∀ rank, Spacious load rank (state.cluster rank) (state.locals rank)) ?_ ?_
  · intro first initial rank
    obtain ⟨setup, rested⟩ := initial.rested
    rw [initial.locals]
    have none : unsettled (first.cluster rank) = 0 :=
      Finset.sum_eq_zero fun peer _ => rested.settled rank peer
    refine ⟨light rank, none.trans_le (Nat.zero_le _), Or.inr ?_⟩
    rw [none, Nat.zero_add]
    exact load.load_le (light rank)
  · intro labels before label after earlier spacious step rank
    cases step with
    | @process actor action cluster own follows acts =>
        by_cases same : rank = actor
        · subst same
          obtain ⟨history, ready, -⟩ := reaches_rank earlier rank
          simp only [Function.update_self]
          exact (spacious rank).process ready follows acts.own.2
        · have quiet := acts.execution rank
          simp only [Label.actionsOf, if_neg (Ne.symm same)] at quiet
          simp only [Function.update_of_ne same]
          rw [← quiet.eq_of_nil]
          exact spacious rank
    | @hardware label cluster faultless acts =>
        obtain ⟨history, ready, -⟩ := reaches_rank earlier rank
        have kept := (acts.execution rank).invariant (motive := fun node =>
          node.Formed ∧ Spacious load rank node (before.locals rank)) (by
            rintro node action member node' moves ⟨formed, holds⟩
            exact ⟨moves.formed formed, holds.hardware formed (faultless.isProcess member) moves⟩)
          ⟨Node.reaches_formed ready, spacious rank⟩
        exact kept.2

/-- **Completions.** A process has at most as many completions on its queue as it announces
requests, and one for each receive buffer. -/
theorem reaches_cq_le (load : Load client cap) (light : ∀ rank, load.light rank (start rank))
    (reached : (client.system start held).Reaches labels state) (rank : Fin nprocs) :
    (state.cluster rank).cq.length ≤ cap + prepostDepth := by
  obtain ⟨history, ready, posted⟩ := reaches_rank reached rank
  have requests := (reaches_spacious load light reached rank).few
  have buffers := Node.reaches_balance ready posted
  have counted := length_unhandled_le (Node.reaches_knows ready)
  have inside : (state.cluster rank).cq.length ≤ (state.cluster rank).unhandled.length := by
    rw [Node.unhandled, List.length_append]
    exact Nat.le_add_left _ _
  omega

end States

namespace Op

/-- The requests that come before the next flush. -/
def unflushed : List (Op nprocs) → ℕ
  | [] => 0
  | .zsend .. :: rest => unflushed rest + 1
  | .zflush :: _ => 0
  | .zrecv _ :: rest => unflushed rest
  | .giveBack :: rest => unflushed rest

/-- From each of the calls on at most `cap` requests come before a flush, when this is so of the
calls that follow. -/
def Light (cap : ℕ) (ops : List (Op nprocs)) : Prop :=
  ∀ rest, rest <:+ ops → ∀ following, unflushed following ≤ cap →
    unflushed (rest ++ following) ≤ cap

section Light

variable {cap : ℕ} {front back ops : List (Op nprocs)}

theorem light_nil : Light cap ([] : List (Op nprocs)) := by
  intro rest suffix following few
  rw [List.suffix_nil.mp suffix]
  exact few

theorem Light.append (first : Light cap front) (second : Light cap back) :
    Light cap (front ++ back) := by
  intro rest suffix following few
  rcases suffix_or_exists_of_suffix_append suffix with inside | ⟨start, begins, rfl⟩
  · exact second rest inside following few
  · rw [List.append_assoc]
    exact first start begins _ (second back List.suffix_rfl following few)

/-- Only sending takes room, and a flush makes room. -/
theorem Light.cons {op : Op nprocs} (light : Light cap ops)
    (other : ∀ peer, ¬ op.SendsTo peer) : Light cap (op :: ops) := by
  intro rest suffix following few
  rcases List.suffix_cons_iff.mp suffix with rfl | inside
  · have later := light ops List.suffix_rfl following few
    cases op with
    | zsend buffer offset payload dest => exact absurd rfl (other dest)
    | zflush => exact Nat.zero_le _
    | zrecv | giveBack => exact later
  · exact light rest inside following few

theorem light_receives (sources : List (Fin nprocs)) : Light cap (sources.map .zrecv) := by
  induction sources with
  | nil => exact light_nil
  | cons source others ih => exact ih.cons fun _ => id

/-- Few messages before calls that flush first. -/
theorem light_sends (buffer : RdmaBuffer) (messages : List (Outgoing nprocs))
    (light : Light cap ops) (few : messages.length ≤ cap)
    (flushed : ∀ following, unflushed (ops ++ following) = 0) :
    Light cap (messages.map (Outgoing.op buffer) ++ ops) := by
  intro rest suffix following bounded
  rcases suffix_or_exists_of_suffix_append suffix with inside | ⟨start, begins, rfl⟩
  · exact light rest inside following bounded
  · obtain ⟨sent, ends, rfl⟩ := List.suffix_map_iff.mp begins
    have counted : unflushed (sent.map (Outgoing.op buffer) ++ (ops ++ following)) =
        sent.length := by
      clear ends begins suffix
      induction sent with
      | nil => exact flushed following
      | cons message others ih => exact congrArg (· + 1) ih
    rw [List.append_assoc, counted]
    exact ends.length_le.trans few

end Light

end Op

namespace Script

theorem light_times {cap : ℕ} {script : Script nprocs} (light : Op.Light cap script.ops)
    (turns : ℕ) : Op.Light cap (script.times turns).ops := by
  induction turns with
  | zero => exact Op.light_nil
  | succ turns ih => exact light.append ih

/-- The load of light scripts. -/
def load (nprocs cap : ℕ) : Load (client nprocs) cap where
  load _ script := Op.unflushed script.ops
  light _ script := Op.Light cap script.ops
  light_next {_ script _} light goesOn := by
    rw [command_next goesOn]
    intro rest suffix
    exact light rest (suffix.trans (List.tail_suffix script.ops))
  load_le {_ script} light := by
    have whole := light script.ops List.suffix_rfl [] (Nat.zero_le _)
    rwa [List.append_nil] at whole
  load_zsend {_ script} _ _ _ _ _ named := by
    obtain ⟨listed, rfl⟩ := command_eq_zsend named
    rw [listed]
    exact le_rfl
  load_zrecv {_ script} _ _ named message := by
    obtain ⟨listed, rfl⟩ := command_eq_zrecv named
    rw [listed]
    exact le_rfl
  load_giveBack {_ script} _ named := by
    obtain ⟨listed, rfl⟩ := command_eq_giveBack named
    rw [listed]
    exact le_rfl

end Script

/-- **The completion queues of a job.** -/
theorem Job.reaches_cq_le {phases : List (Phase nprocs)} {held : Fin nprocs → ℕ} {cap : ℕ}
    (chain : CompletesAll phases (fun _ => 0) held)
    (light : ∀ phase ∈ phases, ∀ rank, Op.Light cap (phase rank).ops)
    {labels : List (Option (Label nprocs))} {job : Job nprocs}
    (reached : (Job.system phases).Reaches labels job) (rank : Fin nprocs) :
    (job.cluster rank).cq.length ≤ cap + prepostDepth := by
  obtain ⟨mid, current, -⟩ := Job.reaches_current chain reached
  obtain ⟨start, before, labels', listed, within, -⟩ := current.reached
  have light' : ∀ actor, Op.Light cap (start actor).ops := by
    intro actor
    rcases listed with rfl | member
    · exact Op.light_nil
    · exact light start member actor
  exact Clients.reaches_cq_le (Script.load nprocs cap) light' within rank

end Ympi.Clients
