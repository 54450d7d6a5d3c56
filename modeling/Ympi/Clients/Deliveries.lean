import Ympi.Clients.Rounds

/-! # What a script receives

A rank takes the messages of each source in the order in which the script of the source sends
them: after it has made so many of its receiving calls, it has taken as many of the messages,
from the first one on, and no other.
-/

namespace Ympi.Clients

open LinkedList Foundation Messaging

variable {nprocs : ℕ}

namespace Script

/-- What a rank has taken from each source, and what is under way to it, is what the source has
sent; and it has taken a message for each receiving call that it has made. -/
structure Ledger (start : Fin nprocs → Script nprocs) (network : Net nprocs) : Prop where
  sent : ∀ source dest, takenFrom source (network.locals dest).taken ++
    network.channels (source, dest) ++ Op.messages dest (remaining network source) =
      Op.messages dest (start source).ops
  counted : ∀ source dest, (takenFrom source (network.locals dest).taken).length +
    Op.receivesFrom source (remaining network dest) = Op.receivesFrom source (start dest).ops

section Ledgers

variable {start : Fin nprocs → Script nprocs} {held : Fin nprocs → ℕ}
  {network network' : Net nprocs} {rank : Fin nprocs}

theorem Ledger.begun : Ledger start (Client.begun start held) := by
  constructor
  · intro source dest
    rfl
  · intro source dest
    exact Nat.zero_add _

/-- A call moves what it sends into its channel, and what it receives out of one. -/
theorem Ledger.step (ledger : Ledger start network) {op : Op nprocs}
    (made : Makes op rank network network') : Ledger start network' := by
  obtain ⟨received, taken, counted, moved⟩ := made.carries
  have unsent (source dest : Fin nprocs) : Op.messages dest (remaining network source) =
      (if source = rank then Op.messages dest [op] else []) ++
        Op.messages dest (remaining network' source) := by
    split
    next same =>
      subst same
      rw [made.remaining, ← Op.messages_append, List.singleton_append]
    next apart => rw [remaining, remaining, made.others source apart, List.nil_append]
  have has (source dest : Fin nprocs) : takenFrom source (network'.locals dest).taken =
      takenFrom source (network.locals dest).taken ++
        if dest = rank then takenFrom source received else [] := by
    split
    next same =>
      subst same
      rw [taken, takenFrom_append]
    next apart => rw [made.others dest apart, List.append_nil]
  constructor
  · intro source dest
    calc takenFrom source (network'.locals dest).taken ++ network'.channels (source, dest) ++
          Op.messages dest (remaining network' source)
      _ = takenFrom source (network.locals dest).taken ++
          ((if dest = rank then takenFrom source received else []) ++
            network'.channels (source, dest)) ++
          Op.messages dest (remaining network' source) := by
        rw [has source dest, List.append_assoc (takenFrom source (network.locals dest).taken)]
      _ = takenFrom source (network.locals dest).taken ++ network.channels (source, dest) ++
          Op.messages dest (remaining network source) := by
        rw [← moved source dest, unsent source dest]
        simp only [List.append_assoc]
      _ = Op.messages dest (start source).ops := ledger.sent source dest
  · intro source dest
    have before := ledger.counted source dest
    rw [has source dest, List.length_append]
    by_cases same : dest = rank
    · subst same
      rw [made.remaining, Op.receivesFrom_cons] at before
      rw [if_pos rfl, counted]
      omega
    · rw [remaining, made.others dest same, if_neg same, List.length_nil]
      exact before

theorem ledger_of_execution {parties : List (Fin nprocs)}
    (execution : (client nprocs).program.system.Execution (Client.begun start held) parties
      network) : Ledger start network := by
  apply execution.invariant (motive := Ledger start)
  · intro before party _ after step ledger
    obtain ⟨op, made⟩ := makes_of_step step
    exact ledger.step made
  · exact Ledger.begun

/-- What was received, what is under way and what is still to be sent are all messages. -/
theorem Ledger.balance (ledger : Ledger start network) (source dest : Fin nprocs) :
    (network.channels (source, dest)).length + Op.sendsTo dest (remaining network source) +
        Op.receivesFrom source (start dest).ops =
      Op.sendsTo dest (start source).ops + Op.receivesFrom source (remaining network dest) := by
  have counted := ledger.counted source dest
  have sent := congrArg List.length (ledger.sent source dest)
  rw [List.length_append, List.length_append, Op.length_messages, Op.length_messages] at sent
  omega

/-- What a rank has taken are the first messages that the source sends, as many as it has made
receiving calls. -/
theorem Ledger.taken_eq (ledger : Ledger start network) (source dest : Fin nprocs) :
    takenFrom source (network.locals dest).taken = (Op.messages dest (start source).ops).take
      (Op.receivesFrom source (start dest).ops -
        Op.receivesFrom source (remaining network dest)) := by
  have counted := ledger.counted source dest
  have first : Op.receivesFrom source (start dest).ops -
      Op.receivesFrom source (remaining network dest) =
        (takenFrom source (network.locals dest).taken).length := by omega
  rw [← ledger.sent source dest, first, List.append_assoc, List.take_left]

end Ledgers

/-- **Deliveries.** In every reached state what a rank has received from a source are the first
messages that the script of the source sends to it, as many as the rank has made receiving
calls. -/
theorem received_eq_take (start : Fin nprocs → Script nprocs) (held : Fin nprocs → ℕ)
    {labels : List (Label nprocs)} {state : State nprocs (Script nprocs)}
    (reached : ((client nprocs).system start held).Reaches labels state)
    (source rank : Fin nprocs) :
    takenFrom source ((nodeHistory rank labels).flatMap takenBy) =
      (Op.messages rank (start source).ops).take
        (Op.receivesFrom source (start rank).ops -
          Op.receivesFrom source (state.locals rank).ops) := by
  obtain ⟨parties, network, execution, tracks⟩ := reaches_tracks reached
  rw [← tracks.taken rank, (ledger_of_execution execution).taken_eq, remaining,
    tracks.program rank]

end Script

end Ympi.Clients
