import Ympi.Collective.Rounds

/-! # The transposition

When all ranks have reached the barrier of the same call, every block is in its place,
every rank has written once to every other rank, and nothing was written outside the
blocks.
-/

namespace Ympi.Collective

open LinkedList Foundation Messaging

variable {nprocs : ℕ} {setting : Setting nprocs}

/-- `source` issues a write to `target`. -/
def Event.writesTo (source target : Fin setting.numprocs) : Event setting → Bool
  | .write rank call _ => rank = source ∧ call.dest = setting.worldRank target
  | _ => false

namespace State

variable {state : State setting} {event : Event setting} {thread : Thread}

/-- A rank that is through with a block stays so for the call. -/
theorem ThreadEffect.filled_of {source rank : Fin setting.numprocs}
    (effect : state.ThreadEffect source event thread) (coordinated : state.Coordinated)
    (other : event ≠ .enter source) (filled : (state.threads source).Filled source rank) :
    thread.Filled source rank := by
  have valid := coordinated.valid source
  cases effect with
  | stays => exact filled
  | enters => exact absurd rfl other
  | moves located next =>
      unfold Thread.Filled at filled ⊢
      rw [located] at filled
      cases next with
      | gather => exact absurd filled id
      | @write dst _ _ apart =>
          simp only [turnsBefore_next source.isLt (valid.dst dst located) apart]
          exact Nat.lt_succ_of_lt filled
      | copy | flush | arrive => trivial
      | leave => exact valid.inside (by simp [located])

/-- Since `source` entered its last call it has issued one write to each of the other
ranks that it is through with. -/
structure Issued (state : State setting) (source : Fin setting.numprocs)
    (since : List (Event setting)) : Prop where
  once : ∀ target, target ≠ source → (state.threads source).Filled source target →
    since.countP (Event.writesTo source target) = 1
  never : ∀ target, ¬ (target ≠ source ∧ (state.threads source).Filled source target) →
    since.countP (Event.writesTo source target) = 0

end State

namespace Step

variable {state state' : State setting} {event : Event setting}

/-- A write of the loop goes to the rank whose turn it is. -/
theorem write_turn {source : Fin setting.numprocs} {call : PostCall nprocs}
    {outcome : PostOutcome} (step : Step state (.write source call outcome) state')
    (coordinated : state.Coordinated) :
    ∃ target, target ≠ source ∧ call.dest = setting.worldRank target ∧
      ¬ (state.threads source).Filled source target ∧
      (state'.threads source).Filled source target ∧
      ∀ other, (state'.threads source).Filled source other →
        other = target ∨ (state.threads source).Filled source other := by
  cases step with
  | @write _ dst buffer peer _ data cluster stage apart found named acts =>
      have valid := coordinated.valid source
      have below := valid.dst dst stage
      have reached := (@writeCall_wr _ _ source ⟨dst, below⟩ _ _ _ valid (by simp [stage])
        (by simp [stage]) found named (state.node source).ctx (state.node source).mem).1
      have next := turnsBefore_next source.isLt below apart
      refine ⟨⟨dst, below⟩, fun same => apart (congrArg Fin.val same), reached.symm, ?_, ?_, ?_⟩
      · intro filled
        unfold Thread.Filled at filled
        rw [stage] at filled
        exact Nat.lt_irrefl _ filled
      · unfold Thread.Filled
        simp only [State.withThread, Function.update_self, next]
        exact Nat.lt_succ_self _
      · intro other filled
        unfold Thread.Filled at filled ⊢
        simp only [State.withThread, Function.update_self, next] at filled
        rw [stage]
        rcases Nat.lt_or_eq_of_le (Nat.le_of_lt_succ filled) with earlier | now
        · exact Or.inr earlier
        · exact Or.inl (Fin.ext (turnsBefore_inj source.isLt other.isLt below now))

/-- A step that is no write of `source` issues none. -/
theorem countP_other {source : Fin setting.numprocs} (target : Fin setting.numprocs)
    (other : ∀ call outcome, event ≠ .write source call outcome) :
    [event].countP (Event.writesTo source target) = 0 := by
  rw [List.countP_eq_zero]
  intro member listed
  rw [List.mem_singleton.mp listed]
  cases event with
  | write rank call outcome =>
      have apart : rank ≠ source := by
        rintro rfl
        exact other call outcome rfl
      simp [Event.writesTo, apart]
  | _ => simp [Event.writesTo]

theorem issued {source : Fin setting.numprocs} {since : List (Event setting)}
    (step : Step state event state') (coordinated : state.Coordinated)
    (inside : event ≠ .enter source) (issued : state.Issued source since) :
    state'.Issued source (since ++ [event]) := by
  have effect := step.thread_effect source
  by_cases writes : ∃ call outcome, event = .write source call outcome
  · obtain ⟨call, outcome, rfl⟩ := writes
    obtain ⟨turn, apart, dest, fresh, filled, only⟩ := step.write_turn coordinated
    have counted (target : Fin setting.numprocs) :
        [Event.write source call outcome].countP (Event.writesTo source target) =
          if turn = target then 1 else 0 := by
      by_cases same : turn = target
      · subst same
        simp [Event.writesTo, dest]
      · have elsewhere : setting.worldRank turn ≠ setting.worldRank target :=
          fun equal => same (setting.distinct equal)
        simp [Event.writesTo, dest, same, elsewhere]
    refine ⟨?_, ?_⟩
    · intro target other through
      rw [List.countP_append, counted]
      rcases only target through with rfl | earlier
      · rw [issued.never target fun both => fresh both.2, if_pos rfl]
      · have elsewhere : turn ≠ target := by
          rintro rfl
          exact fresh earlier
        rw [issued.once target other earlier, if_neg elsewhere]
    · intro target neither
      have elsewhere : turn ≠ target := by
        rintro rfl
        exact neither ⟨apart, filled⟩
      rw [List.countP_append, counted, if_neg elsewhere, issued.never]
      rintro ⟨other, earlier⟩
      exact neither ⟨other, effect.filled_of coordinated inside earlier⟩
  · have silent : ∀ call outcome, event ≠ .write source call outcome :=
      fun call outcome same => writes ⟨call, outcome, same⟩
    refine ⟨?_, ?_⟩
    · intro target other through
      rw [List.countP_append, countP_other target silent]
      rcases (effect.filled coordinated through).2 with earlier | ⟨-, write | ⟨-, own⟩⟩
      · exact issued.once target other earlier
      · exact absurd write writes
      · exact absurd own.symm other
    · intro target neither
      rw [List.countP_append, countP_other target silent, issued.never]
      rintro ⟨other, earlier⟩
      exact neither ⟨other, effect.filled_of coordinated inside earlier⟩

end Step

/-- Memory outside the blocks changes only when the process itself stores to it. -/
theorem State.MemoryEffect.outside {state : State setting} {event : Event setting}
    {rank : Fin setting.numprocs} {mem : ℕ → UInt8} (effect : state.MemoryEffect rank event mem)
    {address : ℕ} (outside : ¬ setting.InBlocks rank address)
    (other : ∀ mem, event ≠ .run (.act (setting.worldRank rank) (.store mem))) :
    mem address = (state.node rank).mem address := by
  have apart (source : Fin setting.numprocs) {data : List UInt8}
      (length : data.length = setting.size) : address < setting.recvBlock source rank ∨
        setting.recvBlock source rank + data.length ≤ address := by
    by_contra within
    have located : setting.recvBlock source rank + (address - setting.recvBlock source rank) =
        address := by omega
    apply outside
    rw [← located]
    exact setting.inBlocks_recvBlock (by omega)
  cases effect with
  | same => rfl
  | stored => exact absurd rfl (other _)
  | copied => exact writeBlock_of_outside _ (apart rank (length_readBlock ..))
  | @landed source => exact writeBlock_of_outside _ (apart source (length_readBlock ..))

variable {history : List (Event setting)} {state : State setting}

/-- The history of a rank that has called the collective splits at its last call. -/
theorem reaches_issued (reached : (system setting).Reaches history state)
    (source : Fin setting.numprocs) (called : 0 < (state.threads source).calls) :
    ∃ before since, history = before ++ .enter source :: since ∧ .enter source ∉ since ∧
      state.Issued source since := by
  revert called
  refine reached.induction (motive := fun history state => 0 < (state.threads source).calls →
    ∃ before since, history = before ++ .enter source :: since ∧ .enter source ∉ since ∧
      state.Issued source since) ?_ ?_
  · intro start initial called
    rw [initial.calls] at called
    cases called
  · intro events before event after earlier hypothesis step called
    have coordinated := reaches_coordinated earlier
    by_cases enters : event = .enter source
    · subst enters
      have fresh := (step.thread_effect source).fresh
      exact ⟨events, [], rfl, by simp, fun target _ filled => absurd filled (fresh target),
        fun _ _ => rfl⟩
    · rw [((step.thread_effect source).kept enters).1] at called
      obtain ⟨front, since, rfl, only, issued⟩ := hypothesis called
      refine ⟨front, since ++ [event], by simp, ?_, step.issued coordinated enters issued⟩
      intro member
      rcases List.mem_append.mp member with old | last
      · exact only old
      · exact enters (List.mem_singleton.mp last).symm

/-- When two ranks are in the barrier of the same call, the block is in its place. -/
theorem State.Flowing.barrier_block (flowing : state.Flowing) {source rank : Fin setting.numprocs}
    (sender : (state.threads source).stage = .barrier)
    (receiver : (state.threads rank).stage = .barrier)
    (same : (state.threads source).calls = (state.threads rank).calls) :
    state.block source rank = state.want source rank := by
  have filled : (state.threads source).Filled source rank := by
    unfold Thread.Filled
    rw [sender]
    trivial
  have inside : (state.threads rank).stage ≠ .outside := by
    rw [receiver]
    nofun
  rcases flowing.landed source rank filled (Or.inr ⟨same.symm, inside⟩) with ⟨requests, -⟩ | here
  · rw [sender] at requests
    cases requests
  · exact here

/-- All ranks have reached the barrier of the call with this number, and none has left
it. -/
def State.AtBarrier (state : State setting) (call : ℕ) : Prop :=
  ∀ rank, (state.threads rank).stage = .barrier ∧ (state.threads rank).calls = call

/-- **The transposition.** When all ranks are in the barrier of the same call, every
block of a receive buffer is the block of the send buffer as it was when its rank
entered that call, and since then every rank has issued one write to each other rank.
No step of the collective writes outside the blocks. -/
theorem alltoall_transposes (reached : (system setting).Reaches history state)
    (succeeds : ∀ event ∈ history, event.Succeeds) :
    (∀ call, state.AtBarrier call →
      (∀ source rank, state.block source rank = state.want source rank) ∧
      ∀ source, ∃ before since, history = before ++ .enter source :: since ∧
        .enter source ∉ since ∧ ∀ target, since.countP (Event.writesTo source target) =
          if target = source then 0 else 1) ∧
    ∀ event after, Step state event after → ∀ rank address, ¬ setting.InBlocks rank address →
      (∀ mem, event ≠ .run (.act (setting.worldRank rank) (.store mem))) →
      (after.node rank).mem address = (state.node rank).mem address := by
  have flowing := reaches_flowing reached succeeds
  refine ⟨?_, ?_⟩
  · intro call atBarrier
    refine ⟨?_, ?_⟩
    · intro source rank
      have same := (atBarrier source).2.trans (atBarrier rank).2.symm
      exact flowing.barrier_block (atBarrier source).1 (atBarrier rank).1 same
    · intro source
      have called := ((reaches_coordinated reached).valid source).inside (by
        rw [(atBarrier source).1]
        nofun)
      obtain ⟨before, since, split, only, issued⟩ := reaches_issued reached source called
      refine ⟨before, since, split, only, ?_⟩
      intro target
      split
      next own => exact issued.never target fun both => both.1 own
      next other =>
          apply issued.once target other
          unfold Thread.Filled
          rw [(atBarrier source).1]
          trivial
  · intro event after step rank address outside other
    exact (step.memory_effect flowing.carries rank).outside outside other

/-- Two ranks reach the barrier of their first call with their blocks exchanged. -/
theorem alltoall_transposes_pair : ∃ (history : List (Event pair)) (state : State pair),
    (system pair).Reaches history state ∧ (∀ event ∈ history, event.Succeeds) ∧
      state.AtBarrier 1 ∧ ∀ source rank, state.block source rank = state.want source rank := by
  obtain ⟨history, state, reached, succeeds, -, atBarrier⟩ := pair.barrier_run
  have placed := (alltoall_transposes reached succeeds).1 1 atBarrier
  exact ⟨history, state, reached, succeeds, atBarrier, placed.1⟩

end Ympi.Collective
