import Mathlib.Algebra.BigOperators.Ring.Finset
import Ympi.Clients.Deliveries
import Ympi.Clients.Plays

/-! # Loops without barriers

Ranks that exchange messages in a loop cannot get far ahead of each other: a rank that is through
with a turn has received what its partners sent in it, and so these are at most one turn behind.
No rank is therefore sent more than the messages of two turns at a time.
-/

namespace Ympi.Clients.Script

open LinkedList Foundation Messaging

variable {nprocs : ℕ}

/-- A rank is in turn `turn` of `turns` turns, in which it has made the calls `made`. -/
structure InTurn (body : Script nprocs) (turns turn : ℕ) (made ops : List (Op nprocs))
    (held : ℕ) : Prop where
  rest : ∃ inside left, body.ops = made ++ inside ∧ ops = inside ++ (body.times left).ops ∧
    turn + 1 + left = turns
  held : held = Op.heldAfter made 0

section Turns

variable {body : Script nprocs} {turns turn held : ℕ} {made ops : List (Op nprocs)}

theorem exists_ops_times_eq_cons {left : ℕ} {op : Op nprocs} {rest : List (Op nprocs)}
    (listed : (body.times left).ops = op :: rest) :
    ∃ inside left', left = left' + 1 ∧ body.ops = op :: inside ∧
      rest = inside ++ (body.times left').ops := by
  have some : body.ops ≠ [] := by
    intro none
    have nothing (count : ℕ) : (body.times count).ops = [] := by
      induction count with
      | zero => rfl
      | succ count ih => rw [times, ops_append, none, ih, List.append_nil]
    rw [nothing] at listed
    cases listed
  cases left with
  | zero => cases listed
  | succ left =>
      obtain ⟨first, inside, parts⟩ := List.exists_cons_of_ne_nil some
      rw [times, ops_append, parts, List.cons_append] at listed
      obtain ⟨rfl, rfl⟩ := List.cons.inj listed
      exact ⟨inside, left, rfl, parts, rfl⟩

theorem InTurn.begun (turns : ℕ) : InTurn body (turns + 1) 0 [] (body.times (turns + 1)).ops 0 :=
  ⟨⟨body.ops, turns, rfl, rfl, by omega⟩, rfl⟩

/-- With each call a rank goes on in its turn, or to the next one when it has given its buffers
back. -/
theorem InTurn.step {op : Op nprocs} {rest : List (Op nprocs)}
    (inTurn : InTurn body turns turn made (op :: rest) held)
    (givesBack : Op.heldAfter body.ops 0 = 0) :
    ∃ turn' made', InTurn body turns turn' made' rest (Op.heldAfter [op] held) := by
  obtain ⟨⟨inside, left, parts, listed, ends⟩, rfl⟩ := inTurn
  cases inside with
  | cons first inside =>
      obtain ⟨rfl, rfl⟩ := List.cons.inj listed
      refine ⟨turn, made ++ [op], ⟨⟨inside, left, ?_, rfl, ends⟩, ?_⟩⟩
      · rw [parts, List.append_assoc, List.singleton_append]
      · rw [Op.heldAfter_append]
  | nil =>
      obtain ⟨inside, left', rfl, begins, rfl⟩ := exists_ops_times_eq_cons listed.symm
      rw [List.append_nil] at parts
      refine ⟨turn + 1, [op], ⟨⟨inside, left', begins, rfl, by omega⟩, ?_⟩⟩
      rw [← parts, givesBack]

/-- What is left to be counted after `turn` turns and the calls of this one. -/
theorem InTurn.sends (inTurn : InTurn body turns turn made ops held) (peer : Fin nprocs) :
    turn * Op.sendsTo peer body.ops + Op.sendsTo peer made + Op.sendsTo peer ops =
      turns * Op.sendsTo peer body.ops := by
  obtain ⟨⟨inside, left, parts, rfl, rfl⟩, -⟩ := inTurn
  have own : Op.sendsTo peer body.ops = Op.sendsTo peer made + Op.sendsTo peer inside := by
    rw [parts, Op.sendsTo_append]
  rw [Op.sendsTo_append, sendsTo_times, Nat.add_mul, Nat.add_mul, Nat.one_mul]
  omega

theorem InTurn.receives (inTurn : InTurn body turns turn made ops held) (source : Fin nprocs) :
    turn * Op.receivesFrom source body.ops + Op.receivesFrom source made +
      Op.receivesFrom source ops = turns * Op.receivesFrom source body.ops := by
  obtain ⟨⟨inside, left, parts, rfl, rfl⟩, -⟩ := inTurn
  have own : Op.receivesFrom source body.ops =
      Op.receivesFrom source made + Op.receivesFrom source inside := by
    rw [parts, Op.receivesFrom_append]
  rw [Op.receivesFrom_append, receivesFrom_times, Nat.add_mul, Nat.add_mul, Nat.one_mul]
  omega

/-- In a turn no more is sent than the body of the loop sends. -/
theorem InTurn.sends_le (inTurn : InTurn body turns turn made ops held) (peer : Fin nprocs) :
    Op.sendsTo peer made ≤ Op.sendsTo peer body.ops := by
  obtain ⟨⟨inside, left, parts, -, -⟩, -⟩ := inTurn
  rw [parts, Op.sendsTo_append]
  exact Nat.le_add_right _ _

/-- The buffers that are held were received in this turn. -/
theorem InTurn.held_le (inTurn : InTurn body turns turn made ops held) :
    held ≤ ∑ source, Op.receivesFrom source made := by
  rw [inTurn.held]
  clear inTurn
  have bounded (calls : List (Op nprocs)) (start : ℕ) :
      Op.heldAfter calls start ≤ start + ∑ source, Op.receivesFrom source calls := by
    induction calls generalizing start with
    | nil => exact Nat.le_add_right _ _
    | cons op rest ih =>
        have first := Op.heldAfter_le op start
        have later := ih (Op.heldAfter [op] start)
        rw [← Op.heldAfter_append, List.singleton_append] at later
        simp only [Op.receivesFrom_cons, Finset.sum_add_distrib]
        omega
  exact (bounded made 0).trans_eq (Nat.zero_add _)

end Turns

/-- The ranks send each other `volume` messages in each turn, and have given back all buffers at
its end. Who is sent messages answers them. -/
structure Exchanges (body : Phase nprocs) (volume : Fin nprocs → Fin nprocs → ℕ) : Prop where
  sends : ∀ source dest, Op.sendsTo dest (body source).ops = volume source dest
  receives : ∀ source dest, Op.receivesFrom source (body dest).ops = volume source dest
  answered : ∀ source dest, 0 < volume source dest → 0 < volume dest source
  givesBack : ∀ rank, Op.heldAfter (body rank).ops 0 = 0

section Exchanges

variable {body : Phase nprocs} {volume : Fin nprocs → Fin nprocs → ℕ} {turns : ℕ}
  {network : Net nprocs}

/-- Each rank is in one of its turns. -/
def Turning (body : Phase nprocs) (turns : ℕ) (network : Net nprocs) (turn : Fin nprocs → ℕ)
    (made : Fin nprocs → List (Op nprocs)) : Prop :=
  ∀ rank, InTurn (body rank) turns (turn rank) (made rank) (remaining network rank)
    (network.locals rank).held

theorem exists_turning {parties : List (Fin nprocs)} (exchanges : Exchanges body volume)
    (execution : (client nprocs).program.system.Execution
      (Client.begun (fun rank => (body rank).times (turns + 1)) fun _ => 0) parties network) :
    ∃ turn made, Turning body (turns + 1) network turn made := by
  apply execution.invariant (motive := fun network =>
    ∃ turn made, Turning body (turns + 1) network turn made)
  · rintro before party _ after step ⟨turn, made, turning⟩
    obtain ⟨op, makes⟩ := makes_of_step step
    have own := turning party
    rw [makes.remaining] at own
    obtain ⟨turn', made', inTurn⟩ := own.step (exchanges.givesBack party)
    refine ⟨Function.update turn party turn', Function.update made party made', ?_⟩
    intro rank
    by_cases same : rank = party
    · subst same
      rw [Function.update_self, Function.update_self, makes.held]
      exact inTurn
    · rw [Function.update_of_ne same, Function.update_of_ne same, remaining,
        makes.others rank same]
      exact turning rank
  · exact ⟨fun _ => 0, fun _ => [], fun rank => InTurn.begun turns⟩

section Turning

variable {turn : Fin nprocs → ℕ} {made : Fin nprocs → List (Op nprocs)}
  (turning : Turning body turns network turn made) (exchanges : Exchanges body volume)
  (ledger : Ledger (fun rank => (body rank).times turns) network) (source dest : Fin nprocs)

include turning exchanges ledger

/-- The messages under way, and those received in this turn, are what the source has sent beyond
the turns that the rank is through with. -/
theorem Turning.under_way : (network.channels (source, dest)).length +
    Op.receivesFrom source (made dest) + turn dest * volume source dest =
      turn source * volume source dest + Op.sendsTo dest (made source) := by
  have balance := ledger.balance source dest
  have sent := (turning source).sends dest
  have received := (turning dest).receives source
  rw [sendsTo_times, receivesFrom_times, exchanges.sends, exchanges.receives] at balance
  rw [exchanges.sends] at sent
  rw [exchanges.receives] at received
  omega

/-- **In step.** A rank is at most one turn ahead of those that send to it. -/
theorem Turning.turn_le (answers : 0 < volume dest source) : turn source ≤ turn dest + 1 := by
  have moved := turning.under_way exchanges ledger dest source
  have sent := (turning dest).sends_le source
  rw [exchanges.sends] at sent
  apply Nat.le_of_mul_le_mul_right _ answers
  rw [Nat.succ_mul]
  omega

/-- No rank is sent more than the messages of two turns at a time. -/
theorem Turning.channel_le : (network.channels (source, dest)).length +
    Op.receivesFrom source (made dest) ≤ 2 * volume source dest := by
  have moved := turning.under_way exchanges ledger source dest
  have sent := (turning source).sends_le dest
  rw [exchanges.sends] at sent
  rcases Nat.eq_zero_or_pos (volume source dest) with none | some
  · rw [none, Nat.mul_zero, Nat.mul_zero] at moved
    omega
  · have ahead := turning.turn_le exchanges ledger source dest (exchanges.answered _ _ some)
    have whole : turn source * volume source dest ≤ (turn dest + 1) * volume source dest :=
      Nat.mul_le_mul_right _ ahead
    rw [Nat.add_mul, Nat.one_mul] at whole
    omega

end Turning

/-- **Two turns of buffers.** Receive buffers for the messages of two turns suffice for any
number of turns. -/
theorem Exchanges.provides (exchanges : Exchanges body volume) (turns : ℕ)
    (few : ∀ dest, 2 * ∑ source, volume source dest ≤ prepostDepth) :
    Provides (client nprocs) (fun rank => (body rank).times turns) fun _ => 0 := by
  cases turns with
  | zero =>
      apply provides_of_total
      intro rank
      simp [times]
  | succ turns =>
      intro parties network execution dest
      obtain ⟨turn, made, turning⟩ := exists_turning exchanges execution
      have ledger := ledger_of_execution execution
      calc demand network dest
        _ ≤ (∑ source, Op.receivesFrom source (made dest)) +
            ∑ source, (network.channels (source, dest)).length :=
          Nat.add_le_add_right (turning dest).held_le _
        _ = ∑ source, ((network.channels (source, dest)).length +
            Op.receivesFrom source (made dest)) := by
          rw [Finset.sum_add_distrib, Nat.add_comm]
        _ ≤ ∑ source, 2 * volume source dest :=
          Finset.sum_le_sum fun source _ => turning.channel_le exchanges ledger source dest
        _ ≤ prepostDepth := by
          rw [← Finset.mul_sum]
          exact few dest

/-- A loop completes when a turn can be played and two turns of it fit. -/
theorem Exchanges.completes (exchanges : Exchanges body volume) (turns : ℕ)
    (plays : Plays fun rank => (body rank).ops)
    (few : ∀ dest, 2 * ∑ source, volume source dest ≤ prepostDepth) :
    Completes (fun rank => (body rank).times turns) (fun _ => 0) fun _ => 0 := by
  apply Completes.of_provides (exchanges.provides turns few) (plays.times turns)
  intro rank
  rw [heldAfter_times]
  exact Function.iterate_fixed (exchanges.givesBack rank) turns

end Exchanges

end Ympi.Clients.Script
