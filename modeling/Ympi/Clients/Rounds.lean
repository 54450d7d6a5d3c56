import Ympi.Clients.Realization
import Ympi.Clients.Script

/-! # Scripts over channels

What a script does over channels is a matter of counting: how many messages it sends to and
receives from each peer, and how many buffers it holds. Ranks that take their turns one after
the other play a round, and a script whose sends are few needs no more receive buffers than
there are, in whatever order the ranks go on.
-/

namespace Ympi.Clients

open LinkedList Foundation Messaging

variable {nprocs : ℕ}

namespace Op

/-- The number of messages that the call sends to `peer`. -/
def messagesTo (peer : Fin nprocs) : Op nprocs → ℕ
  | .zsend _ _ _ dest => if dest = peer then 1 else 0
  | _ => 0

/-- The number of messages that the call receives from `source`. -/
def messagesFrom (source : Fin nprocs) : Op nprocs → ℕ
  | .zrecv origin => if origin = source then 1 else 0
  | _ => 0

/-- The messages that the calls send to `dest`, in order. -/
def messages (dest : Fin nprocs) (ops : List (Op nprocs)) : List Message :=
  ops.flatMap fun
    | .zsend _ _ payload target => if target = dest then [⟨payload, payload.length⟩] else []
    | _ => []

def sendsTo (peer : Fin nprocs) (ops : List (Op nprocs)) : ℕ :=
  (ops.map (messagesTo peer)).sum

def receivesFrom (source : Fin nprocs) (ops : List (Op nprocs)) : ℕ :=
  (ops.map (messagesFrom source)).sum

/-- The number of buffers held after the calls. -/
def heldAfter : List (Op nprocs) → ℕ → ℕ
  | [], held => held
  | .zrecv _ :: rest, held => heldAfter rest (held + 1)
  | .giveBack :: rest, _ => heldAfter rest 0
  | .zsend .. :: rest, held => heldAfter rest held
  | .zflush :: rest, held => heldAfter rest held

@[simp] theorem sendsTo_nil (peer : Fin nprocs) : sendsTo peer [] = 0 := rfl

@[simp] theorem sendsTo_cons (peer : Fin nprocs) (op : Op nprocs) (rest : List (Op nprocs)) :
    sendsTo peer (op :: rest) = op.messagesTo peer + sendsTo peer rest := rfl

@[simp] theorem sendsTo_append (peer : Fin nprocs) (front back : List (Op nprocs)) :
    sendsTo peer (front ++ back) = sendsTo peer front + sendsTo peer back := by
  simp [sendsTo]

@[simp] theorem receivesFrom_nil (source : Fin nprocs) : receivesFrom source [] = 0 := rfl

@[simp] theorem receivesFrom_cons (source : Fin nprocs) (op : Op nprocs)
    (rest : List (Op nprocs)) :
    receivesFrom source (op :: rest) = op.messagesFrom source + receivesFrom source rest := rfl

@[simp] theorem receivesFrom_append (source : Fin nprocs) (front back : List (Op nprocs)) :
    receivesFrom source (front ++ back) = receivesFrom source front + receivesFrom source back := by
  simp [receivesFrom]

@[simp] theorem messages_append (dest : Fin nprocs) (front back : List (Op nprocs)) :
    messages dest (front ++ back) = messages dest front ++ messages dest back := by
  simp [messages]

theorem length_messages_singleton (dest : Fin nprocs) (op : Op nprocs) :
    (messages dest [op]).length = op.messagesTo dest := by
  cases op with
  | zsend buffer offset payload target =>
      by_cases same : target = dest <;> simp [messages, messagesTo, same]
  | zflush | zrecv | giveBack => rfl

theorem length_messages (dest : Fin nprocs) (ops : List (Op nprocs)) :
    (messages dest ops).length = sendsTo dest ops := by
  induction ops with
  | nil => rfl
  | cons op rest ih =>
      rw [← List.singleton_append, messages_append, List.length_append, ih,
        length_messages_singleton]
      rfl

theorem heldAfter_append (front back : List (Op nprocs)) (held : ℕ) :
    heldAfter (front ++ back) held = heldAfter back (heldAfter front held) := by
  induction front generalizing held with
  | nil => rfl
  | cons op rest ih => cases op <;> exact ih _

/-- Only receiving adds to the buffers held. -/
theorem heldAfter_le (op : Op nprocs) (held : ℕ) :
    heldAfter [op] held ≤ held + ∑ source, op.messagesFrom source := by
  cases op with
  | zrecv origin =>
      have one : ∑ source, messagesFrom source (.zrecv origin) = 1 := by
        simp [messagesFrom]
      rw [one]
      exact le_rfl
  | zsend | zflush | giveBack => simp [heldAfter]

end Op

namespace Script

/-- A network of scripts. -/
abbrev Net (nprocs : ℕ) := Network (Fin nprocs) Message (Progress nprocs (Script nprocs))

/-- The calls that a rank has still to make. -/
def remaining (network : Net nprocs) (rank : Fin nprocs) : List (Op nprocs) :=
  (network.locals rank).program.ops

/-- The messages of `source` among those taken. -/
def takenFrom (source : Fin nprocs) (taken : List (Fin nprocs × Message)) : List Message :=
  (taken.filter fun entry => entry.1 = source).map Prod.snd

@[simp] theorem takenFrom_nil (source : Fin nprocs) : takenFrom source [] = [] := rfl

@[simp] theorem takenFrom_append (source : Fin nprocs)
    (front back : List (Fin nprocs × Message)) :
    takenFrom source (front ++ back) = takenFrom source front ++ takenFrom source back := by
  simp [takenFrom]

theorem takenFrom_singleton (source origin : Fin nprocs) (message : Message) :
    takenFrom source [(origin, message)] = if origin = source then [message] else [] := by
  by_cases same : origin = source <;> simp [takenFrom, same]

/-- What a step of `rank` does to the network: it makes the next call of its script. What the
call sends goes into its channel, and what it receives comes out of one. -/
structure Makes (op : Op nprocs) (rank : Fin nprocs) (network network' : Net nprocs) :
    Prop where
  remaining : remaining network rank = op :: remaining network' rank
  others : ∀ other, other ≠ rank → network'.locals other = network.locals other
  held : (network'.locals rank).held = Op.heldAfter [op] (network.locals rank).held
  carries : ∃ received, (network'.locals rank).taken = (network.locals rank).taken ++ received ∧
    (∀ source, (takenFrom source received).length = op.messagesFrom source) ∧
    ∀ source dest,
      network.channels (source, dest) ++ (if source = rank then Op.messages dest [op] else []) =
        (if dest = rank then takenFrom source received else []) ++ network'.channels (source, dest)

section Steps

variable {network network' : Net nprocs} {rank : Fin nprocs}

/-- As many messages go into the channels and come out of them. -/
theorem Makes.channels {op : Op nprocs} (made : Makes op rank network network')
    (source dest : Fin nprocs) : (network'.channels (source, dest)).length +
      (if dest = rank then op.messagesFrom source else 0) =
    (network.channels (source, dest)).length + if source = rank then op.messagesTo dest else 0 := by
  obtain ⟨received, -, counted, moved⟩ := made.carries
  have lengths := congrArg List.length (moved source dest)
  rw [List.length_append, List.length_append, apply_ite List.length, apply_ite List.length,
    counted, Op.length_messages_singleton, List.length_nil] at lengths
  omega

/-- The message of a send is the last in its channel. -/
theorem channels_put (network : Net nprocs) (rank dest : Fin nprocs) (message : Message)
    (next : Progress nprocs (Script nprocs)) (source target : Fin nprocs) :
    (network.put rank dest [message] next).channels (source, target) =
      network.channels (source, target) ++
        if source = rank then (if dest = target then [message] else []) else [] := by
  by_cases same : (source, target) = (rank, dest)
  · cases same
    simp [Network.put]
  · simp only [Network.put, Function.update_of_ne same]
    rw [Prod.mk.injEq, not_and] at same
    split
    next here => rw [if_neg (Ne.symm (same here)), List.append_nil]
    next => rw [List.append_nil]

theorem channels_take {message : Message} {rest : List Message} (network : Net nprocs)
    {rank origin : Fin nprocs} (waiting : network.channels (origin, rank) = message :: rest)
    (next : Progress nprocs (Script nprocs)) (source target : Fin nprocs) :
    network.channels (source, target) =
      (if target = rank then (if origin = source then [message] else []) else []) ++
        (network.take rank origin next).channels (source, target) := by
  by_cases same : (source, target) = (origin, rank)
  · cases same
    simp [Network.take, waiting]
  · simp only [Network.take, Function.update_of_ne same]
    rw [Prod.mk.injEq, not_and'] at same
    split
    next here => rw [if_neg (Ne.symm (same here)), List.nil_append]
    next => rw [List.nil_append]

/-- A step of a rank makes its next call. -/
theorem makes_of_step (step : (client nprocs).program.Step network rank network') :
    ∃ op, Makes op rank network network' := by
  cases step with
  | internal command =>
      unfold Client.program at command
      split at command <;> cases command
      next named =>
        obtain ⟨listed, rfl⟩ := command_eq_zflush named
        refine ⟨.zflush, ?_, fun other apart => Function.update_of_ne apart .., ?_, ?_⟩
        · simp only [remaining, Network.advance, Function.update_self]
          exact listed
        · simp [Network.advance, Op.heldAfter]
        · refine ⟨[], by simp [Network.advance], fun _ => rfl, ?_⟩
          simp [Network.advance, Op.messages]
      next named =>
        obtain ⟨listed, rfl⟩ := command_eq_giveBack named
        refine ⟨.giveBack, ?_, fun other apart => Function.update_of_ne apart .., ?_, ?_⟩
        · simp only [remaining, Network.advance, Function.update_self]
          exact listed
        · simp [Network.advance, Op.heldAfter]
        · refine ⟨[], by simp [Network.advance], fun _ => rfl, ?_⟩
          simp [Network.advance, Op.messages]
  | @send dest message next command =>
      unfold Client.program at command
      split at command <;> cases command
      next _ buffer offset payload _ named =>
        obtain ⟨listed, rfl⟩ := command_eq_zsend named
        refine ⟨.zsend buffer offset payload dest, ?_,
          fun other apart => Function.update_of_ne apart .., ?_, ?_⟩
        · simp only [remaining, Network.put, Function.update_self]
          exact listed
        · simp [Network.put, Op.heldAfter]
        · refine ⟨[], by simp [Network.put], fun _ => rfl, ?_⟩
          simp [channels_put, Op.messages]
  | @receive source message rest next command waiting =>
      unfold Client.program at command
      split at command <;> cases command
      next named =>
        obtain ⟨listed, rfl⟩ := command_eq_zrecv named
        refine ⟨.zrecv source, ?_, fun other apart => Function.update_of_ne apart .., ?_, ?_⟩
        · simp only [remaining, Network.take, Function.update_self]
          exact listed
        · simp [Network.take, Op.heldAfter]
        · refine ⟨[(source, message)], by simp [Network.take], ?_, ?_⟩
          · intro origin
            rw [takenFrom_singleton, apply_ite List.length]
            rfl
          · intro origin target
            simpa [Op.messages, takenFrom_singleton] using
              channels_take network waiting _ origin target

/-- A rank can make its next call unless it receives from an empty channel. -/
theorem exists_step {op : Op nprocs} {rest : List (Op nprocs)}
    (listed : remaining network rank = op :: rest)
    (stocked : ∀ source, op = .zrecv source → network.channels (source, rank) ≠ []) :
    ∃ network', (client nprocs).program.Step network rank network' := by
  have first : (network.locals rank).program.ops = op :: rest := listed
  cases op with
  | zsend buffer offset payload dest =>
      have command : (client nprocs).program rank (network.locals rank) =
          .send dest ⟨payload, payload.length⟩
            { network.locals rank with program := (network.locals rank).program.tail } := by
        simp only [Client.program, client, command, first]
      exact ⟨_, .send command⟩
  | zflush =>
      have command : (client nprocs).program rank (network.locals rank) =
          .internal { network.locals rank with program := (network.locals rank).program.tail } := by
        simp only [Client.program, client, command, first]
      exact ⟨_, .internal command⟩
  | zrecv source =>
      obtain ⟨message, others, waiting⟩ := List.exists_cons_of_ne_nil (stocked source rfl)
      have command : (client nprocs).program rank (network.locals rank) =
          .receive source fun message => {
            program := (network.locals rank).program.tail
            held := (network.locals rank).held + 1
            taken := (network.locals rank).taken ++ [(source, message)] } := by
        simp only [Client.program, client, command, first]
      exact ⟨_, .receive command waiting⟩
  | giveBack =>
      have command : (client nprocs).program rank (network.locals rank) =
          .internal { network.locals rank with
            program := (network.locals rank).program.tail
            held := 0 } := by
        simp only [Client.program, client, command, first]
      exact ⟨_, .internal command⟩

end Steps

/-- Scripts without calls have come to their ends. -/
theorem stopped_of_remaining {network : Net nprocs}
    (ended : ∀ rank, remaining network rank = []) : (client nprocs).program.Stopped network := by
  intro rank
  have named : (client nprocs).command rank (network.locals rank).program = .stop :=
    command_eq_stop.mpr (ended rank)
  rw [Client.program, named]

section Turns

variable {network : Net nprocs}

/-- What is left after `rank` has made some calls. -/
structure Turn (rank : Fin nprocs) (front rest : List (Op nprocs))
    (network network' : Net nprocs) : Prop where
  remaining : remaining network' rank = rest
  others : ∀ other, other ≠ rank → network'.locals other = network.locals other
  held : (network'.locals rank).held = Op.heldAfter front (network.locals rank).held
  channels : ∀ source dest, (network'.channels (source, dest)).length +
      (if dest = rank then Op.receivesFrom source front else 0) =
    (network.channels (source, dest)).length + if source = rank then Op.sendsTo dest front else 0

/-- **A turn.** A rank can make its calls on its own when the messages that it receives are
there. -/
theorem exists_turn {rank : Fin nprocs} {front rest : List (Op nprocs)}
    (listed : remaining network rank = front ++ rest)
    (stocked : ∀ source,
      Op.receivesFrom source front ≤ (network.channels (source, rank)).length) :
    ∃ parties network', (client nprocs).program.system.Execution network parties network' ∧
      Turn rank front rest network network' := by
  induction front generalizing network with
  | nil =>
      refine ⟨[], network, .refl network, listed, fun _ _ => rfl, rfl, ?_⟩
      intro source dest
      simp
  | cons op front ih =>
      have waiting (source : Fin nprocs) (receives : op = .zrecv source) :
          network.channels (source, rank) ≠ [] := by
        have enough := stocked source
        subst receives
        rw [Op.receivesFrom_cons, Op.messagesFrom, if_pos rfl] at enough
        exact List.ne_nil_of_length_pos (by omega)
      obtain ⟨mid, step⟩ := exists_step listed waiting
      obtain ⟨op', made⟩ := makes_of_step step
      obtain ⟨rfl, left⟩ := List.cons.inj (listed.symm.trans made.remaining)
      have stocked' (source : Fin nprocs) :
          Op.receivesFrom source front ≤ (mid.channels (source, rank)).length := by
        have enough := stocked source
        have moved := made.channels source rank
        rw [Op.receivesFrom_cons] at enough
        rw [if_pos rfl] at moved
        omega
      obtain ⟨parties, network', execution, turn⟩ := ih left.symm stocked'
      refine ⟨rank :: parties, network', .cons step execution, turn.remaining, ?_, ?_, ?_⟩
      · intro other apart
        exact (turn.others other apart).trans (made.others other apart)
      · rw [turn.held, made.held, ← Op.heldAfter_append]
        rfl
      · intro source dest
        have first := made.channels source dest
        have second := turn.channels source dest
        rw [Op.receivesFrom_cons, Op.sendsTo_cons]
        split_ifs at first second ⊢ <;> omega

/-- What is left after the ranks in `order` have made some calls. -/
structure Round (order : List (Fin nprocs)) (front rest : Fin nprocs → List (Op nprocs))
    (network network' : Net nprocs) : Prop where
  remaining : ∀ rank ∈ order, remaining network' rank = rest rank
  others : ∀ other, other ∉ order → network'.locals other = network.locals other
  held : ∀ rank ∈ order,
    (network'.locals rank).held = Op.heldAfter (front rank) (network.locals rank).held
  channels : ∀ source dest, (network'.channels (source, dest)).length +
      (if dest ∈ order then Op.receivesFrom source (front dest) else 0) =
    (network.channels (source, dest)).length +
      if source ∈ order then Op.sendsTo dest (front source) else 0

/-- **A round.** Ranks can take their turns one after the other when the messages that they
receive are there at the start. -/
theorem exists_round {order : List (Fin nprocs)} {front rest : Fin nprocs → List (Op nprocs)}
    (distinct : order.Nodup)
    (listed : ∀ rank ∈ order, remaining network rank = front rank ++ rest rank)
    (stocked : ∀ rank ∈ order, ∀ source,
      Op.receivesFrom source (front rank) ≤ (network.channels (source, rank)).length) :
    ∃ parties network', (client nprocs).program.system.Execution network parties network' ∧
      Round order front rest network network' := by
  induction order generalizing network with
  | nil =>
      refine ⟨[], network, .refl network, ?_, fun _ _ => rfl, ?_, fun _ _ => rfl⟩
      · intro rank member
        cases member
      · intro rank member
        cases member
  | cons rank order ih =>
      obtain ⟨fresh, distinct'⟩ := List.nodup_cons.mp distinct
      obtain ⟨first, mid, begun, turn⟩ :=
        exists_turn (listed rank List.mem_cons_self) (stocked rank List.mem_cons_self)
      have apart (other : Fin nprocs) (member : other ∈ order) : other ≠ rank := by
        rintro rfl
        exact fresh member
      have kept (other : Fin nprocs) (member : other ∈ order) :
          mid.locals other = network.locals other := turn.others other (apart other member)
      have listed' (other : Fin nprocs) (member : other ∈ order) :
          remaining mid other = front other ++ rest other := by
        rw [remaining, kept other member]
        exact listed other (List.mem_cons_of_mem _ member)
      have stocked' (other : Fin nprocs) (member : other ∈ order) (source : Fin nprocs) :
          Op.receivesFrom source (front other) ≤ (mid.channels (source, other)).length := by
        have enough := stocked other (List.mem_cons_of_mem _ member) source
        have moved := turn.channels source other
        rw [if_neg (apart other member)] at moved
        omega
      obtain ⟨second, network', rest', round⟩ := ih distinct' listed' stocked'
      refine ⟨first ++ second, network', begun.append rest', ?_, ?_, ?_, ?_⟩
      · intro other member
        rcases List.mem_cons.mp member with rfl | later
        · rw [remaining, round.others other fresh]
          exact turn.remaining
        · exact round.remaining other later
      · intro other outside
        obtain ⟨unequal, absent⟩ := not_or.mp (mt List.mem_cons.mpr outside)
        exact (round.others other absent).trans (turn.others other unequal)
      · intro other member
        rcases List.mem_cons.mp member with rfl | later
        · rw [round.others other fresh]
          exact turn.held
        · rw [round.held other later, kept other later]
      · intro source dest
        have own := turn.channels source dest
        have others := round.channels source dest
        simp only [List.mem_cons]
        by_cases receives : dest = rank <;> by_cases sends : source = rank
        all_goals simp_all <;> omega

/-- A round of all ranks. -/
theorem exists_full_round {front rest : Fin nprocs → List (Op nprocs)}
    (listed : ∀ rank, remaining network rank = front rank ++ rest rank)
    (stocked : ∀ rank source,
      Op.receivesFrom source (front rank) ≤ (network.channels (source, rank)).length) :
    ∃ parties network', (client nprocs).program.system.Execution network parties network' ∧
      (∀ rank, remaining network' rank = rest rank) ∧
      (∀ rank, (network'.locals rank).held =
        Op.heldAfter (front rank) (network.locals rank).held) ∧
      ∀ source dest, (network'.channels (source, dest)).length +
          Op.receivesFrom source (front dest) =
        (network.channels (source, dest)).length + Op.sendsTo dest (front source) := by
  obtain ⟨parties, network', execution, round⟩ := exists_round (List.nodup_finRange nprocs)
    (fun rank _ => listed rank) (fun rank _ => stocked rank)
  refine ⟨parties, network', execution, ?_, ?_, ?_⟩
  · intro rank
    exact round.remaining rank (List.mem_finRange rank)
  · intro rank
    exact round.held rank (List.mem_finRange rank)
  · intro source dest
    have moved := round.channels source dest
    rwa [if_pos (List.mem_finRange dest), if_pos (List.mem_finRange source)] at moved

end Turns

section Totals

variable {network network' target : Net nprocs} {start : Fin nprocs → Script nprocs}
  {held : Fin nprocs → ℕ} {rank : Fin nprocs}

/-- Ranks only make the calls that are left of their scripts. -/
theorem remaining_suffix {parties : List (Fin nprocs)}
    (execution : (client nprocs).program.system.Execution network parties network')
    (rank : Fin nprocs) : remaining network' rank <:+ remaining network rank := by
  apply execution.invariant (motive := fun after => remaining after rank <:+ remaining network rank)
    _ List.suffix_rfl
  intro before party _ after step suffix
  obtain ⟨op, made⟩ := makes_of_step step
  refine List.IsSuffix.trans ?_ suffix
  by_cases same : rank = party
  · subst same
    rw [made.remaining]
    exact List.suffix_cons _ _
  · rw [remaining, made.others rank same]
    exact List.suffix_rfl

/-- Fewer calls send fewer messages. -/
theorem sendsTo_le_of_suffix {front back : List (Op nprocs)} (suffix : back <:+ front) :
    Op.sendsTo rank back ≤ Op.sendsTo rank front := by
  obtain ⟨others, rfl⟩ := suffix
  rw [Op.sendsTo_append]
  exact Nat.le_add_left _ _

/-- The buffers of `rank` that the messages under way and those still to be sent on the way to
`target` may take. -/
def committed (target network : Net nprocs) (rank : Fin nprocs) : ℕ :=
  demand network rank + ∑ source,
    (Op.sendsTo rank (remaining network source) - Op.sendsTo rank (remaining target source))

/-- A call on the way commits no more. -/
theorem Makes.committed_le {op : Op nprocs} {actor : Fin nprocs}
    (made : Makes op actor network network')
    (onward : ∀ source, Script.remaining target source <:+ Script.remaining network' source)
    (rank : Fin nprocs) : committed target network' rank ≤ committed target network rank := by
  have carried : ∑ source, (network'.channels (source, rank)).length +
      (if rank = actor then ∑ source, op.messagesFrom source else 0) =
        ∑ source, (network.channels (source, rank)).length + op.messagesTo rank := by
    have each := Finset.sum_congr rfl fun source (_ : source ∈ Finset.univ) =>
      made.channels source rank
    rw [Finset.sum_add_distrib, Finset.sum_add_distrib, Finset.sum_ite_eq',
      if_pos (Finset.mem_univ actor)] at each
    rw [← each]
    split <;> simp
  have unsent : ∑ source, (Op.sendsTo rank (Script.remaining network' source) -
        Op.sendsTo rank (Script.remaining target source)) + op.messagesTo rank =
      ∑ source, (Op.sendsTo rank (Script.remaining network source) -
        Op.sendsTo rank (Script.remaining target source)) := by
    have each (source : Fin nprocs) : Op.sendsTo rank (Script.remaining network source) -
          Op.sendsTo rank (Script.remaining target source) =
        (Op.sendsTo rank (Script.remaining network' source) -
          Op.sendsTo rank (Script.remaining target source)) +
          if source = actor then op.messagesTo rank else 0 := by
      have less : Op.sendsTo rank (Script.remaining target source) ≤ _ :=
        sendsTo_le_of_suffix (onward source)
      by_cases same : source = actor
      · subst same
        rw [made.remaining, Op.sendsTo_cons, if_pos rfl]
        omega
      · have kept : Script.remaining network' source = Script.remaining network source := by
          rw [Script.remaining, Script.remaining, made.others source same]
        rw [if_neg same, kept, Nat.add_zero]
    rw [Finset.sum_congr rfl fun source _ => each source, Finset.sum_add_distrib,
      Finset.sum_ite_eq', if_pos (Finset.mem_univ actor)]
  have holds : (network'.locals rank).held ≤ (network.locals rank).held +
      if rank = actor then ∑ source, op.messagesFrom source else 0 := by
    by_cases same : rank = actor
    · subst same
      rw [made.held, if_pos rfl]
      exact Op.heldAfter_le op _
    · rw [made.others rank same, if_neg same, Nat.add_zero]
  unfold committed demand
  omega

theorem fits_of_few (few : ∀ rank, committed target network rank ≤ prepostDepth) :
    Fits network :=
  fun rank => (Nat.le_add_right _ _).trans (few rank)

theorem fits_along {parties others : List (Fin nprocs)}
    (few : ∀ rank, committed target network rank ≤ prepostDepth)
    (execution : (client nprocs).program.system.Execution network parties network')
    (onward : (client nprocs).program.system.Execution network' others target) :
    ((client nprocs).program.system.restrict fun before _ _ => Fits before).Execution network
      parties network' ∧ ∀ rank, committed target network' rank ≤ prepostDepth := by
  induction execution generalizing others with
  | refl => exact ⟨.refl _, few⟩
  | snoc _ step ih =>
      obtain ⟨fitting, few'⟩ := ih (.cons step onward)
      obtain ⟨op, made⟩ := makes_of_step step
      refine ⟨.snoc fitting ⟨step, fits_of_few few'⟩, ?_⟩
      intro rank
      exact (made.committed_le (remaining_suffix onward) rank).trans (few' rank)

/-- When the messages of an execution fit in all, the ranks never need more receive buffers on
the way than there are. -/
theorem fits_of_committed {parties : List (Fin nprocs)}
    (few : ∀ rank, committed target network rank ≤ prepostDepth)
    (execution : (client nprocs).program.system.Execution network parties target) :
    ((client nprocs).program.system.restrict fun before _ _ => Fits before).Execution network
      parties target ∧ Fits target := by
  obtain ⟨fitting, few'⟩ := fits_along few execution (.refl target)
  exact ⟨fitting, fits_of_few few'⟩

/-- **Few messages.** When all messages of the scripts and the buffers held fit into the
receive buffers of each rank, these suffice in whatever order the ranks go on. -/
theorem provides_of_total (few : ∀ rank,
      held rank + ∑ source, Op.sendsTo rank (start source).ops ≤ prepostDepth) :
    Provides (client nprocs) start held := by
  intro parties network execution
  have few' (rank : Fin nprocs) :
      committed network (Client.begun start held) rank ≤ prepostDepth := by
    have none : demand (Client.begun start held) rank = held rank := by
      simp [demand, Client.begun]
    rw [committed, none]
    refine (Nat.add_le_add_left (Finset.sum_le_sum fun source _ => Nat.sub_le _ _) _).trans ?_
    exact few rank
  exact (fits_of_committed few' execution).2

end Totals

end Script

end Ympi.Clients
