import Ympi.Clients.CompletionQueue
import Ympi.Clients.FanRuns

/-! # The latency benchmark

`ympi_latency` lets ranks 0 and 1 answer each other, with a barrier before each round and messages
of 1, 2, 4, ..., 4096 bytes. Unlike the ping-pong of the fan benchmark it gives the buffers back
after each round, so any number of rounds can be measured.
-/

namespace Ympi.Clients.Latency

open LinkedList Foundation Messaging

/-- `MAX_ITER` -/
def maxIter : ℕ := 16 * 1024

variable {nprocs : ℕ} (setting : Fan.Setting nprocs)

/-- `do_pingpong` -/
def doPingpong (nb : Power Fan.bytes) : Phase nprocs := fun rank =>
  if rank.val = 0 then
    Fan.sendTo setting rank nb setting.rank1 ++ .receives [setting.rank1] ++ .giveBack
  else if rank.val = 1 then
    .receives [setting.rank0] ++ Fan.sendTo setting rank nb setting.rank0 ++ .giveBack
  else .done

/-- The macro `TEST` for two ranks with `iter` rounds for each size, from its first barrier on. The
other ranks leave it at once. -/
def test (iter : ℕ) : List (Phase nprocs) :=
  -- the results of a size are printed between the barrier after its rounds and the next one
  (Power.doublings Fan.bytes Fan.bytes 1 Power.one_eq_pow).flatMap fun nb =>
    List.replicate iter (doPingpong setting nb) ++ [Phase.idle]

/-- What `main` does between two barriers; its variable `iter` is `MAX_ITER`. -/
def main (iter : ℕ) : List (Phase nprocs) :=
  Phase.idle :: Phase.idle :: test setting iter

section Rounds

variable (nb : Power Fan.bytes)

/-- `YMPI_Return` after a round. -/
def ending (rank : Fin nprocs) : List (Op nprocs) :=
  if rank.val < 2 then [.giveBack] else []

theorem ops_doPingpong (np : Power nprocs) (rank : Fin nprocs) :
    (doPingpong setting nb rank).ops =
      (Fan.doPingpong setting np nb rank).ops ++ ending rank := by
  unfold doPingpong Fan.doPingpong ending
  split_ifs
  any_goals omega
  all_goals simp

theorem plays_ending : Script.Plays fun rank : Fin nprocs => ending rank := by
  apply Script.plays_exchange
  · intro rank
    apply Script.sendsFirst_of_sends
    intro source
    unfold ending
    split <;> rfl
  · intro source dest
    unfold ending
    split <;> split <;> rfl

/-- After a round nothing is under way, and no buffer is held. -/
theorem completes_doPingpong (np : Power nprocs) :
    Completes (doPingpong setting nb) (fun _ => 0) fun _ => 0 := by
  apply Completes.of_plays
  · simp only [ops_doPingpong setting nb np]
    exact (Fan.plays_doPingpong setting np nb).append plays_ending
  · intro rank
    have unsent (source : Fin nprocs) : Op.sendsTo rank (ending source) = 0 := by
      unfold ending
      split <;> rfl
    simp only [ops_doPingpong setting nb np, Op.sendsTo_append, unsent, Fan.sendsTo_doPingpong]
    have one := sum_le_one (fun source : Fin nprocs => source.val + rank.val = 1)
      fun source other first second => Fin.ext (by omega)
    have enough : 1 ≤ prepostDepth := by decide
    simp only [Nat.add_zero, Nat.zero_add]
    exact one.trans enough
  · intro rank
    rw [ops_doPingpong setting nb np, Op.heldAfter_append, Fan.heldAfter_doPingpong]
    unfold ending
    split <;> rfl

/-- A rank sends one message before it flushes. -/
theorem light_doPingpong (rank : Fin nprocs) : Op.Light 1 (doPingpong setting nb rank).ops := by
  have single (peer : Fin nprocs) :
      Op.Light 1 (Fan.sendTo setting rank nb peer).ops :=
    Op.light_sends _ _ (Op.light_nil.cons fun _ => id) le_rfl fun _ => rfl
  have gives : Op.Light 1 (Script.giveBack : Script nprocs).ops :=
    Op.light_nil.cons fun _ => id
  unfold doPingpong
  split_ifs
  · exact ((single _).append (Op.light_receives _)).append gives
  · exact ((Op.light_receives _).append (single _)).append gives
  · exact Op.light_nil

end Rounds

theorem mem_main {iter : ℕ} {calls : Phase nprocs} (member : calls ∈ main setting iter) :
    calls = Phase.idle ∨ ∃ nb, calls = doPingpong setting nb := by
  rcases List.mem_cons.mp member with idle | later
  · exact Or.inl idle
  rcases List.mem_cons.mp later with idle | tested
  · exact Or.inl idle
  · obtain ⟨nb, -, listed⟩ := List.mem_flatMap.mp tested
    rcases List.mem_append.mp listed with round | idle
    · exact Or.inr ⟨nb, List.eq_of_mem_replicate round⟩
    · exact Or.inl (List.mem_singleton.mp idle)

theorem completesAll_main (iter : ℕ) :
    CompletesAll (main setting iter) (fun _ => 0) fun _ => 0 := by
  apply CompletesAll.of_forall
  intro calls member
  rcases mem_main setting member with rfl | ⟨nb, rfl⟩
  · exact .idle _ fun _ => Nat.zero_le _
  · exact completes_doPingpong setting nb ⟨2, setting.two_le, ⟨1, rfl⟩⟩

/-- **The latency benchmark.** With any number of rounds for each size, the benchmark can come to
its end from every state that it reaches, and no completion queue has more entries than it was
created with. -/
theorem latency_can_finish (iter : ℕ) {labels : List (Option (Label nprocs))} {job : Job nprocs}
    (reached : (Job.system (main setting iter)).Reaches labels job) :
    (∃ more after, (Job.system (main setting iter)).Execution job more after ∧ after.Done) ∧
      ∀ rank, (job.cluster rank).cq.length ≤ cqEntries := by
  have chain := completesAll_main setting iter
  refine ⟨Job.can_finish chain reached, ?_⟩
  intro rank
  have light : ∀ calls ∈ main setting iter, ∀ rank, Op.Light 1 (calls rank).ops := by
    intro calls member actor
    rcases mem_main setting member with rfl | ⟨nb, rfl⟩
    · exact Op.light_nil
    · exact light_doPingpong setting nb actor
  exact (Job.reaches_cq_le chain light reached rank).trans (by decide)

theorem latency_can_finish_pair : ∃ job, Job.Initial (main Fan.pair maxIter) job ∧
    ∃ more after, (Job.system (main Fan.pair maxIter)).Execution job more after ∧ after.Done := by
  obtain ⟨job, initial⟩ := Job.exists_initial (main Fan.pair maxIter) (by decide)
  exact ⟨job, initial, (latency_can_finish Fan.pair maxIter (.initial initial)).1⟩

end Ympi.Clients.Latency
