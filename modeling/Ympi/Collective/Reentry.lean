import Ympi.Collective.Transpose

/-! # Between two calls

The one barrier of a call is at its end, so a rank may enter its next call while another
one has not even returned. Its block of a receive buffer is stable from the return of
the receiver until then, and no longer.
-/

namespace Ympi.Collective

open LinkedList Foundation Messaging

variable {nprocs : ℕ} {setting : Setting nprocs}

namespace State

variable {state state' : State setting} {event : Event setting}

/-- `rank` has returned from a call, and `source` has not entered the next one. -/
structure Between (state : State setting) (source rank : Fin setting.numprocs) : Prop where
  called : 0 < (state.threads rank).calls
  outside : (state.threads rank).stage = .outside
  same : (state.threads source).calls = (state.threads rank).calls

/-- A rank that has entered the barrier of its last call is in it or has returned. -/
theorem Coordinated.passed (coordinated : state.Coordinated) {source : Fin setting.numprocs}
    (called : 0 < (state.threads source).calls)
    (arrived : (state.threads source).calls ≤ state.arrived (setting.worldRank source)) :
    (state.threads source).stage = .outside ∨ (state.threads source).stage = .barrier := by
  rw [coordinated.arrived, Thread.barriers] at arrived
  by_contra neither
  rw [if_neg neither] at arrived
  omega

/-- A rank that returned knows that the others have reached the barrier. -/
theorem Between.source_stage {source rank : Fin setting.numprocs}
    (between : state.Between source rank) (coordinated : state.Coordinated) :
    (state.threads source).stage = .outside ∨ (state.threads source).stage = .barrier := by
  have passed := coordinated.together rank (setting.worldRank source)
  rw [Thread.returns, if_pos between.outside, ← between.same] at passed
  refine coordinated.passed ?_ passed
  rw [between.same]
  exact between.called

/-- Between two calls a step keeps the block, unless the receiver itself stores to it. -/
theorem Between.block_kept {source rank : Fin setting.numprocs}
    (between : state.Between source rank) (coordinated : state.Coordinated)
    (carries : state.Carries) (step : Step state event state')
    (other : ∀ mem, event ≠ .run (.act (setting.worldRank rank) (.store mem))) :
    state'.block source rank = state.block source rank := by
  have effect := step.memory_effect carries rank
  unfold block
  generalize (state'.node rank).mem = mem at effect
  cases effect with
  | same => rfl
  | stored => exact absurd rfl (other _)
  | copied stage => exact absurd (between.outside.symm.trans stage) nofun
  | @landed origin posted carried =>
      apply readBlock_writeBlock_apart _ _
      rw [want, length_readBlock]
      refine setting.recvBlock_apart ?_ rank
      rintro rfl
      have requests := carried.requests
      rcases between.source_stage coordinated with stage | stage <;>
        (rw [stage] at requests; exact requests)

theorem Between.step {source rank : Fin setting.numprocs} (between : state.Between source rank)
    (step : Step state event state')
    (receiver : event ≠ .enter rank) (sender : event ≠ .enter source) :
    state'.Between source rank ∧ state'.want source rank = state.want source rank := by
  have effect := step.thread_effect rank
  have sending := step.thread_effect source
  have stays : (state'.threads rank).stage = .outside := by
    by_contra inside
    exact receiver (effect.entered between.outside inside).1
  refine ⟨⟨?_, stays, ?_⟩, ?_⟩
  · rw [(effect.kept receiver).1]
    exact between.called
  · rw [(effect.kept receiver).1, (sending.kept sender).1]
    exact between.same
  · rw [want, want, (sending.kept sender).2]

end State

/-- The receiver does not store to the block of `source` itself. -/
def LeavesAlone (source rank : Fin setting.numprocs) (before : State setting)
    (event : Event setting) (after : State setting) : Prop :=
  ∀ mem, event = .run (.act (setting.worldRank rank) (.store mem)) →
    after.block source rank = before.block source rank

variable {history : List (Event setting)} {state : State setting}

/-- The return of a rank finds the blocks of those in their place that have not entered
another call. -/
theorem Step.leave_block {source rank : Fin setting.numprocs} {returned : State setting}
    (step : Step state (.leave rank) returned) (coordinated : state.Coordinated)
    (flowing : state.Flowing)
    (same : (returned.threads source).calls = (returned.threads rank).calls) :
    returned.Between source rank ∧ returned.block source rank = returned.want source rank := by
  have kept := (step.thread_effect source).kept nofun
  have kept' := (step.thread_effect rank).kept nofun
  have want : returned.want source rank = state.want source rank := by
    rw [State.want, State.want, kept.2]
  rw [kept.1, kept'.1] at same
  cases step with
  | leave stage all =>
      have called := (coordinated.valid rank).inside (by simp [stage])
      have between : State.Between (state.withThread rank
          { state.threads rank with stage := .outside }) source rank :=
        ⟨by rw [kept'.1]; exact called, by simp [State.withThread],
          by rw [kept.1, kept'.1]; exact same⟩
      refine ⟨between, ?_⟩
      have passed := all (setting.worldRank source)
      rw [coordinated.arrived, Thread.barriers, if_pos (Or.inr stage), ← same] at passed
      have stages := coordinated.passed (by rw [same]; exact called) passed
      have settled : (state.threads source).Filled source rank ∧
          ¬ (state.threads source).stage.Requests := by
        unfold Thread.Filled
        rcases stages with outside | barrier
        · rw [outside]
          exact ⟨by rw [same]; exact called, id⟩
        · rw [barrier]
          exact ⟨trivial, id⟩
      rw [want]
      rcases flowing.landed source rank settled.1 (Or.inr ⟨same.symm, by simp [stage]⟩) with
        ⟨requests, -⟩ | here
      · exact absurd requests settled.2
      · exact here

/-- As long as neither of them enters a call, the two ranks stay between their calls. -/
theorem State.Between.execution {source rank : Fin setting.numprocs} {later : State setting}
    {since : List (Event setting)} (between : state.Between source rank)
    (run : (system setting).Execution state since later)
    (receiver : .enter rank ∉ since) (sender : .enter source ∉ since) :
    later.Between source rank := by
  refine run.invariant (motive := fun state => state.Between source rank) ?_ between
  intro before event member after step between
  refine (between.step step ?_ ?_).1
  · rintro rfl
    exact receiver member
  · rintro rfl
    exact sender member

/-- A block in its place stays there while the receiver leaves it alone. -/
theorem State.Between.block_execution {source rank : Fin setting.numprocs} {later : State setting}
    {since : List (Event setting)} (between : state.Between source rank)
    (placed : state.block source rank = state.want source rank)
    (reached : (system setting).Reaches history state)
    (alone : ((system setting).restrict (LeavesAlone source rank)).Execution state since later)
    (succeeds : ∀ event ∈ history ++ since, event.Succeeds)
    (receiver : .enter rank ∉ since) (sender : .enter source ∉ since) :
    later.block source rank = later.want source rank := by
  induction alone with
  | refl => exact placed
  | @snoc before after since event earlier last ih =>
      obtain ⟨step, leaves⟩ := last
      have front : ∀ member ∈ history ++ since, member.Succeeds := fun member listed =>
        succeeds member (by rw [← List.append_assoc]; exact List.mem_append_left _ listed)
      have receiver' : .enter rank ∉ since := fun member =>
        receiver (List.mem_append_left _ member)
      have sender' : .enter source ∉ since := fun member => sender (List.mem_append_left _ member)
      have reached' := reached.append earlier.of_restrict
      have between' := between.execution earlier.of_restrict receiver' sender'
      have entered : event ≠ .enter rank ∧ event ≠ .enter source := by
        refine ⟨?_, ?_⟩
        · rintro rfl
          exact receiver (by simp)
        · rintro rfl
          exact sender (by simp)
      rw [(between'.step step entered.1 entered.2).2, ← ih front receiver' sender']
      by_cases own : ∃ mem, event = .run (.act (setting.worldRank rank) (.store mem))
      · obtain ⟨mem, stored⟩ := own
        exact leaves mem stored
      · exact between'.block_kept (reaches_coordinated reached')
          (reaches_flowing reached' front).carries step fun mem stored => own ⟨mem, stored⟩

/-- **The result is stable until the next call of its source.** From the return of `rank`
from a call on, until `rank` or `source` enters another one, no step but a store of
`rank` itself changes the block of `source` in the receive buffer of `rank`. If `rank`
leaves it alone, it is the block of the send buffer of `source` as it was when `source`
entered its call; and whatever `rank` stores to it, the block is in its place again
when both have reached the barrier of a later call. -/
theorem result_stable_until_reentry {before returned later : State setting}
    {rank : Fin setting.numprocs} {since : List (Event setting)}
    (reached : (system setting).Reaches history before)
    (left : Step before (.leave rank) returned)
    (run : (system setting).Execution returned since later)
    (succeeds : ∀ event ∈ history ++ [.leave rank] ++ since, event.Succeeds)
    (source : Fin setting.numprocs)
    (same : (returned.threads source).calls = (returned.threads rank).calls)
    (receiver : .enter rank ∉ since) (sender : .enter source ∉ since) :
    (∀ event after, Step later event after →
      (∀ mem, event ≠ .run (.act (setting.worldRank rank) (.store mem))) →
        after.block source rank = later.block source rank) ∧
    (((system setting).restrict (LeavesAlone source rank)).Execution returned since later →
      later.block source rank = later.want source rank) ∧
    ∀ further final, (system setting).Execution later further final →
      (∀ event ∈ further, event.Succeeds) →
      (final.threads source).stage = .barrier → (final.threads rank).stage = .barrier →
      (final.threads source).calls = (final.threads rank).calls →
        final.block source rank = final.want source rank := by
  have coordinated := reaches_coordinated reached
  have flowing := reaches_flowing reached fun event member => succeeds event (by simp [member])
  obtain ⟨between, placed⟩ := left.leave_block coordinated flowing same
  have reached' := reached.step left
  have history' := reached'.append run
  refine ⟨?_, ?_, ?_⟩
  · intro event after step other
    have between' := between.execution run receiver sender
    exact between'.block_kept (reaches_coordinated history')
      (reaches_flowing history' succeeds).carries step other
  · intro alone
    exact between.block_execution placed reached' alone succeeds receiver sender
  · intro further final continues succeed sending receiving equal
    have history'' := history'.append continues
    refine (reaches_flowing history'' ?_).barrier_block sending receiving equal
    intro event member
    rcases List.mem_append.mp member with old | last
    · exact succeeds event old
    · exact succeed event last

/-- One of two ranks returns from its first call and finds the block of the other one. -/
theorem result_stable_until_reentry_pair :
    ∃ (history : List (Event pair)) (before returned : State pair),
      (system pair).Reaches history before ∧ Step before (.leave pair.first) returned ∧
        returned.block pair.second pair.first = returned.want pair.second pair.first := by
  obtain ⟨history, before, reached, succeeds, -, atBarrier⟩ := pair.barrier_run
  have left : Step before (.leave pair.first) _ := .leave (atBarrier pair.first).1
    (pair.arrived_le (reaches_coordinated reached) atBarrier pair.first)
  refine ⟨history, before, _, reached, left, ?_⟩
  have stable := result_stable_until_reentry reached left (.refl _) (by
    intro event member
    rw [List.append_nil] at member
    rcases List.mem_append.mp member with earlier | last
    · exact succeeds event earlier
    · rw [List.mem_singleton.mp last]
      trivial) pair.second (by
    simp [State.withThread, pair.second_ne_first, (atBarrier pair.first).2,
      (atBarrier pair.second).2]) (List.not_mem_nil) (List.not_mem_nil)
  exact stable.2.1 (.refl _)

/-- The result of a call does not have to survive until the rank enters its next call:
the first rank returns, and the next step is a write of the second rank that changes the
block it left in the receive buffer. -/
theorem result_overwritten_after_return :
    ∃ (history : List (Event pair)) (before returned after : State pair) (posted : Posted),
      (system pair).Reaches history before ∧ Step before (.leave pair.first) returned ∧
        Step returned (.run (.rdmaWrite (pair.worldRank pair.second) (pair.worldRank pair.first)
          posted true)) after ∧
        (∀ event ∈ history, event.Succeeds) ∧
        after.block pair.second pair.first ≠ returned.block pair.second pair.first := by
  obtain ⟨history, before, posted, reached, succeeds, stage, all, queued, opcode, address, data,
    permits⟩ := pair.ahead_run fun mem => mem (pair.recvBlock pair.second pair.first) + 1
  have left : Step before (.leave pair.first) _ := .leave stage all
  have apart : pair.worldRank pair.second ≠ pair.worldRank pair.first := by decide
  obtain ⟨cluster, landed⟩ : ∃ cluster, Cluster.Step before.cluster
      (.rdmaWrite (pair.worldRank pair.second) (pair.worldRank pair.first) posted true) cluster :=
    ⟨_, Cluster.land_step apart queued opcode permits⟩
  have moved := landed.mem_ledger (pair.worldRank pair.first)
  simp only [Label.actionsOf, if_neg apart, List.nil_append, and_self, if_true, List.foldl_cons,
    List.foldl_nil, Action.memory, address, data] at moved
  refine ⟨history, before, _, _, posted, reached, left, .run landed trivial, succeeds, ?_⟩
  have written := readBlock_writeBlock_self (before.node pair.first).mem
    (pair.recvBlock pair.second pair.first)
    [(before.node pair.first).mem (pair.recvBlock pair.second pair.first) + 1]
  have kept : readBlock (before.node pair.first).mem (pair.recvBlock pair.second pair.first) 1 =
      [(before.node pair.first).mem (pair.recvBlock pair.second pair.first)] := rfl
  change readBlock (cluster (pair.worldRank pair.first)).mem _ 1 ≠
    readBlock (before.node pair.first).mem _ 1
  rw [moved, kept]
  intro same
  have equal := List.singleton_inj.mp (written.symm.trans same)
  exact absurd equal (by simp)

end Ympi.Collective
