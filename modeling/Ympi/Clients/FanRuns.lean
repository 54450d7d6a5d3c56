import Mathlib.Algebra.BigOperators.Ring.Finset
import Ympi.Clients.FanBenchmark

/-! # Runs of the fan benchmark

Each call of a pattern leaves no message under way, so its phases can be played. Whether a rank
can starve in one depends on how many messages the sixteen calls of a pattern send to it: the
fan-in of 32 ranks sends more to rank 0 than it has receive buffers for.
-/

namespace Ympi.Clients

open LinkedList Foundation Messaging

variable {nprocs : ℕ}

namespace Fan

section Patterns

variable (setting : Setting nprocs) (np : Power nprocs) (nb : Power bytes)

section SendStart

variable (rank peer : Fin nprocs) (held : ℕ) (dests : List (Fin nprocs)) (distinct : dests.Nodup)

@[simp] theorem sendsTo_sendStart :
    Op.sendsTo peer (sendStart setting rank nb dests distinct).ops = dests.count peer :=
  Script.sendsTo_sends ..

@[simp] theorem receivesFrom_sendStart :
    Op.receivesFrom peer (sendStart setting rank nb dests distinct).ops = 0 :=
  Script.receivesFrom_sends ..

@[simp] theorem heldAfter_sendStart :
    Op.heldAfter (sendStart setting rank nb dests distinct).ops held = held :=
  Script.heldAfter_sends ..

end SendStart

/-- In a fan-out rank 0 sends one message to each of the others. -/
theorem sendsTo_doFanout (source dest : Fin nprocs) :
    Op.sendsTo dest (doFanout setting np nb source).ops =
      if source.val = 0 ∧ 0 < dest.val ∧ dest.val < np.value then 1 else 0 := by
  unfold doFanout
  split_ifs <;> simp_all [count_others, Op.messagesTo]

theorem receivesFrom_doFanout (source dest : Fin nprocs) :
    Op.receivesFrom source (doFanout setting np nb dest).ops =
      if source.val = 0 ∧ 0 < dest.val ∧ dest.val < np.value then 1 else 0 := by
  unfold doFanout
  split_ifs <;> simp_all [Op.messagesFrom]

theorem plays_doFanout : Script.Plays fun rank => (doFanout setting np nb rank).ops := by
  apply Script.plays_exchange
  · intro rank
    unfold doFanout
    split_ifs
    · exact Script.sendsFirst_of_sends (by simp)
    · exact Script.sendsFirst_of_receives (by simp [Op.messagesTo])
    · exact Script.sendsFirst_of_sends fun _ => rfl
  · intro source dest
    rw [receivesFrom_doFanout, sendsTo_doFanout]

/-- In a fan-in each of the others sends one message to rank 0. -/
theorem sendsTo_doFanin (source dest : Fin nprocs) :
    Op.sendsTo dest (doFanin setting np nb source).ops =
      if dest.val = 0 ∧ 0 < source.val ∧ source.val < np.value then 1 else 0 := by
  unfold doFanin
  split_ifs <;> simp_all [Op.messagesTo, List.count_cons]

theorem receivesFrom_doFanin (source dest : Fin nprocs) :
    Op.receivesFrom source (doFanin setting np nb dest).ops =
      if dest.val = 0 ∧ 0 < source.val ∧ source.val < np.value then 1 else 0 := by
  unfold doFanin
  split_ifs <;> simp_all [count_others, Op.messagesFrom]

theorem plays_doFanin : Script.Plays fun rank => (doFanin setting np nb rank).ops := by
  apply Script.plays_exchange
  · intro rank
    unfold doFanin
    split_ifs
    · exact Script.sendsFirst_of_receives (by simp [Op.messagesTo])
    · exact Script.sendsFirst_of_sends (by simp)
    · exact Script.sendsFirst_of_sends fun _ => rfl
  · intro source dest
    rw [receivesFrom_doFanin, sendsTo_doFanin]

/-- In an all-put-all each rank sends one message to each other one. -/
theorem sendsTo_doAllputall (source dest : Fin nprocs) :
    Op.sendsTo dest (doAllputall setting np nb source).ops =
      if source.val < np.value ∧ dest.val < np.value ∧ dest ≠ source then 1 else 0 := by
  unfold doAllputall
  split_ifs <;> simp_all [count_partners, Op.messagesTo, Fin.ext_iff]

theorem receivesFrom_doAllputall (source dest : Fin nprocs) :
    Op.receivesFrom source (doAllputall setting np nb dest).ops =
      if source.val < np.value ∧ dest.val < np.value ∧ dest ≠ source then 1 else 0 := by
  unfold doAllputall
  split_ifs
  all_goals simp_all [count_partners, Op.messagesFrom, Fin.ext_iff]
  omega

theorem plays_doAllputall : Script.Plays fun rank => (doAllputall setting np nb rank).ops := by
  apply Script.plays_exchange
  · intro rank
    unfold doAllputall
    split_ifs
    · exact ⟨_, _, List.append_assoc .., by simp, by simp [Op.messagesTo]⟩
    · exact Script.sendsFirst_of_sends fun _ => rfl
  · intro source dest
    rw [receivesFrom_doAllputall, sendsTo_doAllputall]

/-- Ranks 0 and 1 send each other one message. -/
theorem sendsTo_doPingpong (source dest : Fin nprocs) :
    Op.sendsTo dest (doPingpong setting np nb source).ops =
      if source.val + dest.val = 1 then 1 else 0 := by
  unfold doPingpong
  split_ifs
  all_goals simp_all [Op.messagesTo, List.count_cons]
  omega

/-- In a ping-pong rank 0 sends to rank 1, and then rank 1 to rank 0. -/
theorem plays_doPingpong : Script.Plays fun rank => (doPingpong setting np nb rank).ops := by
  have parts : (fun rank => (doPingpong setting np nb rank).ops) = fun rank =>
      (if rank.val = 0 then
        (sendTo setting rank nb setting.rank1).ops
      else if rank.val = 1 then [.zrecv setting.rank0] else []) ++
      (if rank.val = 0 then [.zrecv setting.rank1]
      else if rank.val = 1 then
        (sendTo setting rank nb setting.rank0).ops
      else []) := by
    funext rank
    unfold doPingpong
    split_ifs <;> rfl
  rw [parts]
  apply Script.Plays.append
  · apply Script.plays_exchange
    · intro rank
      split_ifs
      · exact Script.sendsFirst_of_sends (by simp)
      · exact Script.sendsFirst_of_receives (by simp [Op.messagesTo])
      · exact Script.sendsFirst_of_sends fun _ => rfl
    · intro source dest
      split_ifs <;> simp_all [Op.messagesTo, Op.messagesFrom, List.count_cons]
  · apply Script.plays_exchange
    · intro rank
      split_ifs
      · exact Script.sendsFirst_of_receives (by simp [Op.messagesTo])
      · exact Script.sendsFirst_of_sends (by simp)
      · exact Script.sendsFirst_of_sends fun _ => rfl
    · intro source dest
      split_ifs <;> simp_all [Op.messagesTo, Op.messagesFrom, List.count_cons]

/-- A ping-pong leaves one more buffer with each of the two ranks. -/
theorem heldAfter_doPingpong (rank : Fin nprocs) (held : ℕ) :
    Op.heldAfter (doPingpong setting np nb rank).ops held =
      if rank.val < 2 then held + 1 else held := by
  unfold doPingpong
  split_ifs
  any_goals omega
  all_goals simp [Op.heldAfter_append, Op.heldAfter]

end Patterns

section Phases

variable {setting : Setting nprocs} {np : Power nprocs} {nb : Power bytes}

/-- A phase completes when its calls can be played and its messages are few. -/
theorem completes_phase {pattern : Pattern nprocs} {held held' : Fin nprocs → ℕ}
    (outside : ∀ rank, np.value ≤ rank.val → pattern np nb rank = .done)
    (plays : Script.Plays fun rank => (pattern np nb rank).ops)
    (few : ∀ rank, held rank + iter * ∑ source, Op.sendsTo rank (pattern np nb source).ops ≤
      prepostDepth)
    (ends : ∀ rank, (Op.heldAfter (pattern np nb rank).ops)^[iter] (held rank) = held' rank) :
    Completes (phase pattern np nb) held held' := by
  have same : phase pattern np nb = fun rank => (pattern np nb rank).times iter := by
    funext rank
    unfold phase
    split
    · rfl
    · rw [outside rank (by omega), Script.times_done]
  rw [same]
  apply Completes.of_plays (plays.times iter)
  · intro rank
    simp only [Script.sendsTo_times, ← Finset.mul_sum]
    exact few rank
  · intro rank
    rw [Script.heldAfter_times]
    exact ends rank

theorem completes_fanout : Completes (phase (doFanout setting) np nb) (fun _ => 0) fun _ => 0 := by
  apply completes_phase
  · intro rank outside
    have positive := np.pos
    rw [doFanout, if_neg (by omega), if_neg (by omega)]
  · exact plays_doFanout setting np nb
  · intro rank
    simp only [sendsTo_doFanout]
    have one := sum_le_one
      (fun source : Fin nprocs => source.val = 0 ∧ 0 < rank.val ∧ rank.val < np.value)
      fun source other first second => Fin.ext (first.1.trans second.1.symm)
    simp only [iter, prepostDepth]
    omega
  · intro rank
    apply Function.iterate_fixed
    unfold doFanout
    split_ifs <;> simp [Op.heldAfter]

/-- The calls of a fan-in send at most 240 messages when there are fewer than 32 ranks. -/
theorem completes_fanin (few : np.value ≤ 16) :
    Completes (phase (doFanin setting) np nb) (fun _ => 0) fun _ => 0 := by
  apply completes_phase
  · intro rank outside
    have positive := np.pos
    rw [doFanin, if_neg (by omega), if_neg (by omega)]
  · exact plays_doFanin setting np nb
  · intro rank
    have bounded : ∑ source, Op.sendsTo rank (doFanin setting np nb source).ops ≤
        np.value - 1 := by
      rw [← length_others, ← sum_count]
      apply Finset.sum_le_sum
      intro source _
      rw [sendsTo_doFanin, count_others]
      split_ifs <;> omega
    simp only [iter, prepostDepth]
    omega
  · intro rank
    apply Function.iterate_fixed
    unfold doFanin
    split_ifs <;> simp [Op.heldAfter_append, Op.heldAfter]

/-- The buffers held on ranks 0 and 1 in a test of ping-pong, which does not give them back. -/
def pinged (count : ℕ) (rank : Fin nprocs) : ℕ :=
  if rank.val < 2 then count else 0

theorem completes_pingpong (two : np.value = 2) {count : ℕ} (few : count + iter ≤ prepostDepth) :
    Completes (phase (doPingpong setting) np nb) (pinged count) (pinged (count + iter)) := by
  apply completes_phase
  · intro rank outside
    rw [doPingpong, if_neg (by omega), if_neg (by omega)]
  · exact plays_doPingpong setting np nb
  · intro rank
    simp only [sendsTo_doPingpong]
    have one := sum_le_one (fun source : Fin nprocs => source.val + rank.val = 1)
      fun source other first second => Fin.ext (by omega)
    have held : pinged count rank ≤ count := by
      unfold pinged
      split <;> omega
    simp only [iter] at few ⊢
    omega
  · intro rank
    by_cases inside : rank.val < 2
    · have step : Op.heldAfter (doPingpong setting np nb rank).ops = (· + 1) := by
        funext held
        rw [heldAfter_doPingpong, if_pos inside]
      rw [step, pinged, pinged, if_pos inside, if_pos inside]
      rfl
    · have step : Op.heldAfter (doPingpong setting np nb rank).ops = id := by
        funext held
        rw [heldAfter_doPingpong, if_neg inside, id]
      rw [step, Function.iterate_id, pinged, pinged, if_neg inside, if_neg inside, id]

/-- An all-put-all gives back what the rank holds. -/
theorem completes_allputall {held : Fin nprocs → ℕ}
    (few : ∀ rank, held rank + iter * (np.value - 1) ≤ prepostDepth)
    (outside : ∀ rank, np.value ≤ rank.val → held rank = 0) :
    Completes (phase (doAllputall setting) np nb) held fun _ => 0 := by
  apply completes_phase
  · intro rank outside'
    rw [doAllputall, dif_neg (by omega)]
  · exact plays_doAllputall setting np nb
  · intro rank
    have bounded : ∑ source, Op.sendsTo rank (doAllputall setting np nb source).ops ≤
        np.value - 1 := by
      by_cases inside : rank.val < np.value
      · rw [← length_partners np ⟨rank, inside⟩, ← sum_count]
        apply Finset.sum_le_sum
        intro source _
        simp only [sendsTo_doAllputall, count_partners, ne_eq, Fin.ext_iff]
        split_ifs <;> omega
      · have none (source : Fin nprocs) :
            Op.sendsTo rank (doAllputall setting np nb source).ops = 0 := by
          rw [sendsTo_doAllputall, if_neg fun within => inside within.2.1]
        rw [Finset.sum_eq_zero fun source _ => none source]
        exact Nat.zero_le _
    have enough := few rank
    simp only [iter] at enough ⊢
    omega
  · intro rank
    by_cases inside : rank.val < np.value
    · have step : Op.heldAfter (doAllputall setting np nb rank).ops = fun _ => 0 := by
        funext held
        rw [doAllputall, dif_pos inside]
        simp [Op.heldAfter_append, Op.heldAfter]
      rw [step]
      rfl
    · rw [outside rank (by omega)]
      apply Function.iterate_fixed
      rw [doAllputall, dif_neg inside]
      rfl

end Phases

section Main

variable (setting : Setting nprocs)

theorem le_sixteen {last : ℕ} (power : Power last) (less : power.value < 32) :
    power.value ≤ 16 := by
  obtain ⟨exponent, same⟩ := power.pow
  rw [same] at less ⊢
  have small : exponent < 5 := (Nat.pow_lt_pow_iff_right Nat.one_lt_two).mp less
  exact Nat.pow_le_pow_right Nat.two_pos (Nat.le_of_lt_succ small)

theorem completesAll_fanout :
    CompletesAll (test (doFanout setting) nprocs le_rfl) (fun _ => 0) fun _ => 0 := by
  apply CompletesAll.of_forall
  intro calls member
  obtain ⟨np, nb, rfl, -, -⟩ := mem_test member
  exact completes_fanout

theorem completesAll_fanin (few : nprocs < 32) :
    CompletesAll (test (doFanin setting) nprocs le_rfl) (fun _ => 0) fun _ => 0 := by
  apply CompletesAll.of_forall
  intro calls member
  obtain ⟨np, nb, rfl, -, within⟩ := mem_test member
  exact completes_fanin (le_sixteen np (within.trans_lt few))

/-- Each phase of ping-pong adds sixteen buffers to those that ranks 0 and 1 hold. -/
theorem completesAll_of_pingpong {phases : List (Phase nprocs)} {count : ℕ}
    (pingpong : ∀ calls ∈ phases, ∃ np nb, calls = phase (doPingpong setting) np nb ∧ np.value = 2)
    (few : count + phases.length * iter ≤ prepostDepth) :
    CompletesAll phases (pinged count) (pinged (count + phases.length * iter)) := by
  induction phases generalizing count with
  | nil =>
      rw [List.length_nil, Nat.zero_mul, Nat.add_zero]
      exact .nil _
  | cons calls rest ih =>
      have whole : count + (calls :: rest).length * iter = count + iter + rest.length * iter := by
        rw [List.length_cons, Nat.succ_mul]
        omega
      rw [whole] at few ⊢
      obtain ⟨np, nb, rfl, two⟩ := pingpong calls List.mem_cons_self
      refine .cons (completes_pingpong two (by omega)) (ih ?_ few)
      intro other member
      exact pingpong other (List.mem_cons_of_mem _ member)

theorem completesAll_pingpong :
    CompletesAll (test (doPingpong setting) 2 setting.two_le) (fun _ => 0) (pinged 128) := by
  have start : (fun _ => 0) = (pinged 0 : Fin nprocs → ℕ) := by
    funext rank
    exact (ite_self 0).symm
  have eight : 128 = 0 + (test (doPingpong setting) 2 setting.two_le).length * iter := rfl
  rw [start, eight]
  apply completesAll_of_pingpong
  · intro calls member
    obtain ⟨np, nb, same, least, most⟩ := mem_test member
    exact ⟨np, nb, same, by omega⟩
  · rw [← eight]
    decide

/-- A test comes to each number of ranks after the smaller ones. -/
theorem exists_test_eq_append (pattern : Pattern nprocs) (np : Power nprocs)
    (two_le : 2 ≤ np.value) :
    ∃ front nb back, test pattern nprocs le_rfl = front ++ phase pattern np nb :: back ∧
      ∀ calls ∈ front, ∃ np' nb', calls = phase pattern np' nb' ∧ 2 ≤ np'.value ∧
        np'.value < np.value := by
  have member : np ∈ Power.doublings nprocs nprocs 2 ⟨1, rfl⟩ :=
    (Power.mem_doublings (by omega) np).mpr two_le
  obtain ⟨early, late, parts, smaller⟩ := Power.exists_append_of_mem_doublings member
  have sizes : Power.doublings bytes bytes 32 ⟨5, rfl⟩ =
      ⟨32, by decide, 5, rfl⟩ :: Power.doublings bytes 4095 64 ⟨6, rfl⟩ := rfl
  rw [test, parts, List.flatMap_append, List.flatMap_cons, sizes, List.map_cons]
  refine ⟨_, _, _, rfl, ?_⟩
  intro calls listed
  obtain ⟨np', before, inner⟩ := List.mem_flatMap.mp listed
  obtain ⟨nb', -, rfl⟩ := List.mem_map.mp inner
  have least := Power.le_of_mem_doublings (parts ▸ List.mem_append_left _ before)
  exact ⟨np', nb', rfl, least, smaller np' before⟩

/-- The first all-put-all gives back what is left of the ping-pongs. -/
theorem completesAll_allputall (few : nprocs < 32) :
    CompletesAll (test (doAllputall setting) nprocs le_rfl) (pinged 128) fun _ => 0 := by
  obtain ⟨front, nb, rest, parts, smaller⟩ :=
    exists_test_eq_append (doAllputall setting) ⟨2, setting.two_le, 1, rfl⟩ le_rfl
  have first : front = [] := by
    rw [List.eq_nil_iff_forall_not_mem]
    intro calls member
    obtain ⟨np, -, -, least, less⟩ := smaller calls member
    exact absurd less (Nat.not_lt.mpr least)
  rw [first, List.nil_append] at parts
  rw [parts]
  refine .cons (completes_allputall ?_ ?_) (CompletesAll.of_forall ?_)
  · intro rank
    have held : pinged 128 rank ≤ 128 := by
      unfold pinged
      split <;> omega
    exact (Nat.add_le_add_right held _).trans (show 128 + iter * (2 - 1) ≤ prepostDepth by decide)
  · intro rank outside
    have large : 2 ≤ rank.val := outside
    rw [pinged, if_neg (by omega)]
  · intro calls member
    obtain ⟨np', nb', rfl, -, within⟩ :=
      mem_test (parts ▸ List.mem_cons_of_mem _ member)
    apply completes_allputall
    · intro rank
      have small := le_sixteen np' (within.trans_lt few)
      simp only [iter, prepostDepth]
      omega
    · exact fun _ _ => rfl

theorem completesAll_main (few : nprocs < 32) :
    CompletesAll (main setting) (fun _ => 0) fun _ => 0 :=
  (((completesAll_fanout setting).append (completesAll_fanin setting few)).append
    (completesAll_pingpong setting)).append (completesAll_allputall setting few)

end Main

section Jam

variable (setting : Setting nprocs) (np : Power nprocs) (nb : Power bytes)

/-- Ranks 2 to 17. -/
def hasty (le : 32 ≤ nprocs) : List (Fin nprocs) :=
  (List.finRange 16).map fun turn : Fin 16 => ⟨turn + 2, by have small := turn.isLt; omega⟩

theorem hasty_nodup (le : 32 ≤ nprocs) : (hasty le).Nodup := by
  apply List.Nodup.map _ (List.nodup_finRange 16)
  intro turn turn' same
  have equal := Fin.ext_iff.mp same
  exact Fin.ext (Nat.add_right_cancel equal)

theorem length_hasty (le : 32 ≤ nprocs) : (hasty le).length = 16 := by
  simp [hasty]

theorem mem_hasty {le : 32 ≤ nprocs} {rank : Fin nprocs} (member : rank ∈ hasty le) :
    2 ≤ rank.val ∧ rank.val < 18 := by
  obtain ⟨turn, -, rfl⟩ := List.mem_map.mp member
  have small := turn.isLt
  dsimp only
  omega

/-- What each rank can do of a fan-in while ranks 0 and 1 do nothing. -/
def haste (le : 32 ≤ nprocs) (rank : Fin nprocs) : List (Op nprocs) :=
  if rank ∈ hasty le then (phase (doFanin setting) np nb rank).ops else []

/-- In a fan-in of 32 ranks the hasty ones send sixteen messages to rank 0 each. -/
theorem sendsTo_haste (wide : np.value = 32) (le : 32 ≤ nprocs) (source dest : Fin nprocs) :
    Op.sendsTo dest (haste setting np nb le source) =
      (hasty le).count source * if dest.val = 0 then 16 else 0 := by
  rw [(hasty_nodup le).count, haste]
  split
  next member =>
    have inside := mem_hasty member
    rw [phase, if_pos (by omega), Script.sendsTo_times, sendsTo_doFanin, Nat.one_mul]
    split_ifs
    any_goals omega
    all_goals rfl
  next => rw [Op.sendsTo_nil, Nat.zero_mul]

theorem sum_sendsTo_haste (wide : np.value = 32) (le : 32 ≤ nprocs) (dest : Fin nprocs) :
    ∑ source, Op.sendsTo dest (haste setting np nb le source) =
      if dest.val = 0 then prepostDepth else 0 := by
  simp only [sendsTo_haste setting np nb wide]
  rw [← Finset.sum_mul, sum_count, length_hasty]
  split <;> rfl

theorem receivesFrom_haste (le : 32 ≤ nprocs) (source dest : Fin nprocs) :
    Op.receivesFrom source (haste setting np nb le dest) = 0 := by
  unfold haste
  split
  next member =>
    have inside := mem_hasty member
    unfold phase
    split
    · rw [Script.receivesFrom_times, receivesFrom_doFanin, if_neg (by omega), Nat.mul_zero]
    · rfl
  next => rfl

theorem heldAfter_haste (le : 32 ≤ nprocs) (rank : Fin nprocs) :
    Op.heldAfter (haste setting np nb le rank) 0 = 0 := by
  unfold haste
  split
  · unfold phase
    split
    · rw [Script.heldAfter_times]
      apply Function.iterate_fixed
      unfold doFanin
      split_ifs <;> simp [Op.heldAfter_append, Op.heldAfter]
    · rfl
  · rfl

/-- Rank 0 receives from rank 1 first. -/
theorem exists_fanin_eq_cons (wide : np.value = 32) :
    ∃ rest, (phase (doFanin setting) np nb setting.rank0).ops = .zrecv setting.rank1 :: rest := by
  obtain ⟨value, le, pow⟩ := np
  cases wide
  exact ⟨_, rfl⟩

/-- With 32 or more ranks the benchmark can come to a state that it is never done after: sixteen
ranks send all their messages of the fan-in of 32 ranks, which fill the receive buffers of rank 0,
before rank 1 sends the one that rank 0 takes first. -/
theorem fan_can_jam {job : Job nprocs} (many : 32 ≤ nprocs)
    (initial : Job.Initial (main setting) job) :
    ∃ more jammed, (Job.system (main setting)).Execution job more jammed ∧
      ∀ further after, (Job.system (main setting)).Execution jammed further after →
        ¬ after.Done := by
  obtain ⟨front, nb, back, parts, smaller⟩ :=
    exists_test_eq_append (doFanin setting) ⟨32, many, 5, rfl⟩ (show 2 ≤ 32 by decide)
  have whole : main setting = (test (doFanout setting) nprocs le_rfl ++ front) ++
      phase (doFanin setting) ⟨32, many, 5, rfl⟩ nb ::
        (back ++ test (doPingpong setting) 2 setting.two_le ++
          test (doAllputall setting) nprocs le_rfl) := by
    simp only [main, parts, List.append_assoc, List.cons_append]
  have early : CompletesAll front (fun _ => 0) fun _ => 0 := by
    apply CompletesAll.of_forall
    intro calls member
    obtain ⟨np, nb', rfl, -, less⟩ := smaller calls member
    exact completes_fanin (le_sixteen np less)
  have outside (rank : Fin nprocs) (low : rank.val < 2) : rank ∉ hasty many := fun member =>
    absurd (mem_hasty member).1 (Nat.not_le.mpr low)
  obtain ⟨rest, first⟩ := exists_fanin_eq_cons setting ⟨32, many, 5, rfl⟩ nb rfl
  let calls : Phase nprocs := phase (doFanin setting) ⟨32, many, 5, rfl⟩ nb
  have split (rank : Fin nprocs) : (calls rank).ops =
      haste setting ⟨32, many, 5, rfl⟩ nb many rank ++
        if rank ∈ hasty many then [] else (calls rank).ops := by
    unfold haste
    split
    · exact (List.append_nil _).symm
    · rfl
  have awaits : (if setting.rank0 ∈ hasty many then [] else (calls setting.rank0).ops) =
      .zrecv setting.rank1 :: rest := by
    rw [if_neg (outside _ Nat.two_pos)]
    exact first
  have sent := sum_sendsTo_haste setting ⟨32, many, 5, rfl⟩ nb rfl many
  rw [whole] at initial ⊢
  apply Job.can_jam_ahead ((completesAll_fanout setting).append early) initial split
    (fun rank source => receivesFrom_haste setting _ nb many source rank)
    (heldAfter_haste setting _ nb many) _ awaits
  · rw [sent, Nat.zero_add]
    exact if_pos rfl
  · rw [haste, if_neg (outside _ Nat.one_lt_two), Op.sendsTo_nil]
  · intro rank
    rw [sent, Nat.zero_add]
    split
    · exact le_rfl
    · exact Nat.zero_le _

end Jam

/-- **The fan benchmark.** Whatever the ranks and the hardware have done, the benchmark can still
come to its end, exactly when it runs on fewer than 32 ranks. -/
theorem fan_can_finish_iff (setting : Setting nprocs) {job : Job nprocs}
    (initial : Job.Initial (main setting) job) :
    (∀ labels reached, (Job.system (main setting)).Execution job labels reached →
      ∃ more after, (Job.system (main setting)).Execution reached more after ∧ after.Done) ↔
        nprocs < 32 := by
  constructor
  · intro finishes
    by_contra many
    obtain ⟨labels, jammed, execution, forever⟩ :=
      fan_can_jam setting (Nat.not_lt.mp many) initial
    obtain ⟨more, after, execution', done⟩ := finishes labels jammed execution
    exact forever more after execution' done
  · intro few labels reached execution
    exact Job.can_finish (completesAll_main setting few) ⟨job, initial, execution⟩

/-- Two processes with their send buffers. -/
def pair : Setting 2 where
  sendBuffer _ := ⟨4096, 2 * bytes, ⟨4096, 2 * bytes, 1, 1, true, true⟩⟩
  sendBuffer_bytes _ := rfl
  two_le := Nat.one_lt_two

theorem fan_can_finish_pair : ∃ job, Job.Initial (main pair) job ∧
    ∀ labels reached, (Job.system (main pair)).Execution job labels reached →
      ∃ more after, (Job.system (main pair)).Execution reached more after ∧ after.Done := by
  obtain ⟨job, initial⟩ := Job.exists_initial (main pair) (by decide)
  exact ⟨job, initial, (fan_can_finish_iff pair initial).mpr (by decide)⟩

end Fan

end Ympi.Clients
