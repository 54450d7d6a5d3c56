import Ympi.Clients.Phases

/-! # Loops of scripts

A loop in which each turn leaves no message under way can be played turn by turn. A turn in
which the ranks first send and then receive what was sent can be played in two rounds.
-/

namespace Ympi.Clients

open LinkedList Foundation Messaging

variable {nprocs : ℕ}

theorem sum_count (ranks : List (Fin nprocs)) : ∑ rank, ranks.count rank = ranks.length := by
  have counted : ∑ rank, (ranks : Multiset (Fin nprocs)).count rank = _ :=
    Multiset.sum_count_eq_card fun rank _ => Finset.mem_univ rank
  simpa using counted

theorem sum_le_one (holds : Fin nprocs → Prop) [DecidablePred holds]
    (unique : ∀ rank other, holds rank → holds other → rank = other) :
    (∑ rank, if holds rank then 1 else 0) ≤ 1 := by
  rw [← Finset.card_filter, Finset.card_le_one]
  intro rank member other member'
  exact unique rank other (Finset.mem_filter.mp member).2 (Finset.mem_filter.mp member').2

namespace Script

section Parts

variable (peer : Fin nprocs) (held : ℕ)

@[simp] theorem ops_done : (done : Script nprocs).ops = [] := rfl

@[simp] theorem ops_giveBack : (giveBack : Script nprocs).ops = [.giveBack] := rfl

@[simp] theorem ops_flush : (flush : Script nprocs).ops = [.zflush] := rfl

@[simp] theorem ops_receives (sources : List (Fin nprocs)) :
    (receives sources).ops = sources.map .zrecv := rfl

@[simp] theorem sendsTo_receives (sources : List (Fin nprocs)) :
    Op.sendsTo peer (sources.map .zrecv) = 0 := by
  induction sources with
  | nil => rfl
  | cons source others ih => simpa [Op.messagesTo] using ih

@[simp] theorem receivesFrom_receives (sources : List (Fin nprocs)) :
    Op.receivesFrom peer (sources.map .zrecv) = sources.count peer := by
  induction sources with
  | nil => rfl
  | cons source others ih =>
      rw [List.map_cons, Op.receivesFrom_cons, ih, List.count_cons, Nat.add_comm]
      simp [Op.messagesFrom]

@[simp] theorem heldAfter_receives (sources : List (Fin nprocs)) :
    Op.heldAfter (sources.map .zrecv) held = held + sources.length := by
  induction sources generalizing held with
  | nil => rfl
  | cons source others ih =>
      rw [List.map_cons, Op.heldAfter, ih, List.length_cons]
      omega

section SendsThen

variable (buffer : RdmaBuffer) (messages : List (Outgoing nprocs))

@[simp] theorem sendsTo_map_op : Op.sendsTo peer (messages.map (Outgoing.op buffer)) =
    (messages.map Outgoing.dest).count peer := by
  induction messages with
  | nil => rfl
  | cons message others ih =>
      rw [List.map_cons, Op.sendsTo_cons, ih, List.map_cons, List.count_cons, Nat.add_comm]
      simp [Outgoing.op, Op.messagesTo]

@[simp] theorem receivesFrom_map_op :
    Op.receivesFrom peer (messages.map (Outgoing.op buffer)) = 0 := by
  induction messages with
  | nil => rfl
  | cons message others ih => simpa [Outgoing.op, Op.messagesFrom] using ih

@[simp] theorem heldAfter_map_op :
    Op.heldAfter (messages.map (Outgoing.op buffer)) held = held := by
  induction messages with
  | nil => rfl
  | cons message others ih => exact ih

variable (script : Script nprocs) (fits : ∀ message ∈ messages, (message.op buffer).Fits)

section Before

variable (few : ∀ peer, Op.ahead peer script.ops + (messages.map Outgoing.dest).count peer ≤
  maxSendWrPerQp)

theorem ops_sendsThen : (sendsThen buffer messages script fits few).ops =
    messages.map (Outgoing.op buffer) ++ script.ops := rfl

@[simp] theorem sendsTo_sendsThen :
    Op.sendsTo peer (sendsThen buffer messages script fits few).ops =
      (messages.map Outgoing.dest).count peer + Op.sendsTo peer script.ops := by
  rw [ops_sendsThen, Op.sendsTo_append, sendsTo_map_op]

@[simp] theorem receivesFrom_sendsThen :
    Op.receivesFrom peer (sendsThen buffer messages script fits few).ops =
      Op.receivesFrom peer script.ops := by
  rw [ops_sendsThen, Op.receivesFrom_append, receivesFrom_map_op, Nat.zero_add]

@[simp] theorem heldAfter_sendsThen :
    Op.heldAfter (sendsThen buffer messages script fits few).ops held =
      Op.heldAfter script.ops held := by
  rw [ops_sendsThen, Op.heldAfter_append, heldAfter_map_op]

end Before

variable (few : ∀ peer, (messages.map Outgoing.dest).count peer ≤ maxSendWrPerQp)

theorem ops_posts : (posts buffer messages fits few).ops =
    messages.map (Outgoing.op buffer) ++ [.zflush] := rfl

@[simp] theorem sendsTo_posts :
    Op.sendsTo peer (posts buffer messages fits few).ops =
      (messages.map Outgoing.dest).count peer :=
  sendsTo_sendsThen ..

@[simp] theorem receivesFrom_posts :
    Op.receivesFrom peer (posts buffer messages fits few).ops = 0 :=
  receivesFrom_sendsThen ..

@[simp] theorem heldAfter_posts :
    Op.heldAfter (posts buffer messages fits few).ops held = held :=
  heldAfter_sendsThen ..

end SendsThen

section Sends

variable (buffer : RdmaBuffer) (offset : Fin nprocs → ℕ) (payload : List UInt8)
  (dests : List (Fin nprocs))
  (inBounds : ∀ dest ∈ dests, Context.inBounds buffer (offset dest) payload.length)
  (small : payload.length ≤ vbufBytes) (distinct : dests.Nodup)

@[simp] theorem sendsTo_sends :
    Op.sendsTo peer (sends buffer offset payload dests inBounds small distinct).ops =
      dests.count peer := by
  have same : dests.map (Outgoing.dest ∘ fun dest => ⟨offset dest, payload, dest⟩) = dests :=
    List.map_id dests
  rw [sends, sendsTo_posts, List.map_map, same]

@[simp] theorem receivesFrom_sends :
    Op.receivesFrom peer (sends buffer offset payload dests inBounds small distinct).ops = 0 :=
  receivesFrom_posts ..

@[simp] theorem heldAfter_sends :
    Op.heldAfter (sends buffer offset payload dests inBounds small distinct).ops held = held :=
  heldAfter_posts ..

end Sends

/-- A loop sends in each turn what its body does. -/
theorem sendsTo_times (script : Script nprocs) (turns : ℕ) :
    Op.sendsTo peer (script.times turns).ops = turns * Op.sendsTo peer script.ops := by
  induction turns with
  | zero => simp [times]
  | succ turns ih =>
      rw [times, ops_append, Op.sendsTo_append, ih, Nat.add_comm, ← Nat.succ_mul]

theorem receivesFrom_times (script : Script nprocs) (turns : ℕ) :
    Op.receivesFrom peer (script.times turns).ops = turns * Op.receivesFrom peer script.ops := by
  induction turns with
  | zero => simp [times]
  | succ turns ih =>
      rw [times, ops_append, Op.receivesFrom_append, ih, Nat.add_comm, ← Nat.succ_mul]

theorem times_done (turns : ℕ) : (done : Script nprocs).times turns = done := by
  apply Script.ext
  induction turns with
  | zero => rfl
  | succ turns ih =>
      rw [times, ops_append, ih]
      rfl

/-- What is held after a loop is found turn by turn. -/
theorem heldAfter_times (script : Script nprocs) (turns : ℕ) :
    Op.heldAfter (script.times turns).ops held = (Op.heldAfter script.ops)^[turns] held := by
  induction turns generalizing held with
  | zero => rfl
  | succ turns ih =>
      rw [times, ops_append, Op.heldAfter_append, ih, Function.iterate_succ_apply]

end Parts

/-- From empty channels on the ranks can make the calls `front` and leave the channels empty,
whatever they do afterwards. -/
def Plays (front : Fin nprocs → List (Op nprocs)) : Prop :=
  ∀ (network : Net nprocs) (rest : Fin nprocs → List (Op nprocs)),
    (∀ channel, network.channels channel = []) →
    (∀ rank, remaining network rank = front rank ++ rest rank) →
      ∃ parties network', (client nprocs).program.system.Execution network parties network' ∧
        (∀ rank, remaining network' rank = rest rank) ∧
        (∀ rank, (network'.locals rank).held =
          Op.heldAfter (front rank) (network.locals rank).held) ∧
        ∀ channel, network'.channels channel = []

section Plays

variable {front back : Fin nprocs → List (Op nprocs)}

theorem plays_nil : Plays fun _ : Fin nprocs => [] := by
  intro network rest empty listed
  exact ⟨[], network, .refl network, listed, fun _ => rfl, empty⟩

theorem Plays.append (first : Plays front) (second : Plays back) :
    Plays fun rank => front rank ++ back rank := by
  intro network rest empty listed
  obtain ⟨early, mid, begun, listed', held, empty'⟩ := first network
    (fun rank => back rank ++ rest rank) empty fun rank => by rw [listed, List.append_assoc]
  obtain ⟨late, network', ended, listed'', held', empty''⟩ := second mid rest empty' listed'
  refine ⟨early ++ late, network', begun.append ended, listed'', ?_, empty''⟩
  intro rank
  rw [held', held, Op.heldAfter_append]

/-- A loop can be played when its body can. -/
theorem Plays.times {scripts : Fin nprocs → Script nprocs}
    (turn : Plays fun rank => (scripts rank).ops) (turns : ℕ) :
    Plays fun rank => ((scripts rank).times turns).ops := by
  induction turns with
  | zero => exact plays_nil
  | succ turns ih => exact turn.append ih

/-- The calls send nothing after they have received a message. -/
def SendsFirst (ops : List (Op nprocs)) : Prop :=
  ∃ senders receivers, ops = senders ++ receivers ∧
    (∀ source, Op.receivesFrom source senders = 0) ∧ ∀ dest, Op.sendsTo dest receivers = 0

theorem sendsFirst_of_receives {ops : List (Op nprocs)}
    (receives : ∀ dest, Op.sendsTo dest ops = 0) : SendsFirst ops :=
  ⟨[], ops, rfl, fun _ => rfl, receives⟩

theorem sendsFirst_of_sends {ops : List (Op nprocs)}
    (sends : ∀ source, Op.receivesFrom source ops = 0) : SendsFirst ops :=
  ⟨ops, [], (List.append_nil ops).symm, sends, fun _ => rfl⟩

/-- **An exchange.** Ranks that first send, and then receive as much as was sent to them, leave
nothing under way. -/
theorem plays_exchange (ordered : ∀ rank, SendsFirst (front rank))
    (balanced : ∀ source dest,
      Op.receivesFrom source (front dest) = Op.sendsTo dest (front source)) : Plays front := by
  choose senders receivers parts sending receiving using ordered
  intro network rest empty listed
  have listed' (rank : Fin nprocs) :
      remaining network rank = senders rank ++ (receivers rank ++ rest rank) := by
    rw [listed, parts, List.append_assoc]
  obtain ⟨early, mid, begun, listed', held, carried⟩ := exists_full_round listed'
    (fun rank source => by rw [sending]; exact Nat.zero_le _)
  have filled (source dest : Fin nprocs) : (mid.channels (source, dest)).length =
      Op.receivesFrom source (receivers dest) := by
    have moved := carried source dest
    have sent := balanced source dest
    rw [sending, empty, List.length_nil, Nat.zero_add, Nat.add_zero] at moved
    rw [parts, parts, Op.receivesFrom_append, Op.sendsTo_append, sending, receiving,
      Nat.zero_add, Nat.add_zero] at sent
    exact moved.trans sent.symm
  obtain ⟨late, network', ended, listed'', held', carried'⟩ := exists_full_round listed'
    (fun rank source => (filled source rank).ge)
  refine ⟨early ++ late, network', begun.append ended, listed'', ?_, ?_⟩
  · intro rank
    rw [held', held, parts, Op.heldAfter_append]
  · rintro ⟨source, dest⟩
    have moved := carried' source dest
    rw [filled, receiving, Nat.add_zero] at moved
    exact List.length_eq_zero_iff.mp (by omega)

end Plays

end Script

theorem Completes.of_provides {scripts : Phase nprocs} {held held' : Fin nprocs → ℕ}
    (provides : Provides (Script.client nprocs) scripts held)
    (plays : Script.Plays fun rank => (scripts rank).ops)
    (ends : ∀ rank, Op.heldAfter (scripts rank).ops (held rank) = held' rank) :
    Completes scripts held held' := by
  refine ⟨provides, ?_⟩
  obtain ⟨parties, final, execution, stopped, after, empty⟩ := plays (Client.begun scripts held)
    (fun _ => []) (fun _ => rfl) fun rank => (List.append_nil _).symm
  exact ⟨parties, final, execution, stopped, empty, fun rank => (after rank).trans (ends rank)⟩

/-- Scripts that can be played complete when they have few messages. -/
theorem Completes.of_plays {scripts : Phase nprocs} {held held' : Fin nprocs → ℕ}
    (plays : Script.Plays fun rank => (scripts rank).ops)
    (few : ∀ rank, held rank + ∑ source, Op.sendsTo rank (scripts source).ops ≤ prepostDepth)
    (ends : ∀ rank, Op.heldAfter (scripts rank).ops (held rank) = held' rank) :
    Completes scripts held held' :=
  .of_provides (Script.provides_of_total few) plays ends

end Ympi.Clients
