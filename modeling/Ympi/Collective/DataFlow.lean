import Ympi.Collective.Effects

/-! # The flow of the blocks

The invariant of the data: a rank leaves its send buffer alone during a call, the RDMA
requests in flight carry blocks of it to their places, and a block that was written
stays until the rank it was written for has returned from the call.
-/

namespace Ympi.Collective

open LinkedList Foundation Messaging

variable {nprocs : ℕ} {setting : Setting nprocs}

namespace Thread

/-- The rank is through with the block for `rank` in its last call. -/
def Filled (source : Fin setting.numprocs) (thread : Thread) (rank : Fin setting.numprocs) :
    Prop :=
  match thread.stage with
  | .outside => 0 < thread.calls
  | .gathering => False
  | .writing dst =>
      turnsBefore setting.numprocs source rank < turnsBefore setting.numprocs source dst
  | _ => True

/-- The rank has not returned from its call with the number `calls`. -/
def Awaits (thread : Thread) (calls : ℕ) : Prop :=
  thread.calls < calls ∨ thread.calls = calls ∧ thread.stage ≠ .outside

end Thread

namespace State

variable {state : State setting} {event : Event setting} {thread : Thread}

/-- A rank keeps the number of its call and its entry memory until it enters the next. -/
theorem ThreadEffect.kept {rank : Fin setting.numprocs}
    (effect : state.ThreadEffect rank event thread) (other : event ≠ .enter rank) :
    thread.calls = (state.threads rank).calls ∧
      thread.entryMem = (state.threads rank).entryMem := by
  cases effect with
  | enters => exact absurd rfl other
  | _ => exact ⟨rfl, rfl⟩

theorem ThreadEffect.keeps {rank : Fin setting.numprocs}
    (effect : state.ThreadEffect rank event thread)
    (inside : (state.threads rank).stage ≠ .outside) :
    thread.calls = (state.threads rank).calls ∧
      thread.entryMem = (state.threads rank).entryMem := by
  apply effect.kept
  rintro rfl
  cases effect with
  | stays other => exact other rfl
  | enters outside => exact inside outside
  | moves _ next => cases next

/-- A rank that is in a call has entered it. -/
theorem ThreadEffect.entered {rank : Fin setting.numprocs}
    (effect : state.ThreadEffect rank event thread)
    (outside : (state.threads rank).stage = .outside) (inside : thread.stage ≠ .outside) :
    event = .enter rank ∧ thread.entryMem = (state.node rank).mem := by
  cases effect with
  | stays => exact absurd outside inside
  | enters => exact ⟨rfl, rfl⟩
  | moves located next =>
      rw [outside] at located
      subst located
      cases next

/-- A rank has requests in flight until it enters the barrier. -/
theorem ThreadEffect.requests {rank : Fin setting.numprocs}
    (effect : state.ThreadEffect rank event thread)
    (requests : (state.threads rank).stage.Requests) :
    thread.stage.Requests ∨ event = .arrive rank := by
  cases effect with
  | stays => exact Or.inl requests
  | enters outside => rw [outside] at requests; cases requests
  | moves located next =>
      rw [located] at requests
      cases next with
      | gather => cases requests
      | write => exact Or.inl trivial
      | copy => exact Or.inl trivial
      | flush => exact Or.inl trivial
      | arrive => exact Or.inr rfl
      | leave => cases requests

theorem ThreadEffect.flushing {rank : Fin setting.numprocs}
    (effect : state.ThreadEffect rank event thread) (stage : thread.stage = .flushing) :
    (state.threads rank).stage = .flushing ∨ event = .flush rank := by
  cases effect with
  | stays => exact Or.inl stage
  | enters _ either => rcases either with rfl | rfl <;> cases stage
  | moves located next =>
      cases next with
      | flush => exact Or.inr rfl
      | _ => cases stage

theorem ThreadEffect.awaits {rank : Fin setting.numprocs} {calls : ℕ}
    (effect : state.ThreadEffect rank event thread) (awaits : thread.Awaits calls) :
    (state.threads rank).Awaits calls := by
  cases effect with
  | stays => exact awaits
  | enters outside =>
      rcases awaits with below | ⟨equal, -⟩
      · exact Or.inl (Nat.lt_of_succ_lt below)
      · exact Or.inl (Nat.lt_of_succ_le equal.le)
  | moves located next =>
      rcases awaits with below | ⟨equal, inside⟩
      · exact Or.inl below
      · refine Or.inr ⟨equal, ?_⟩
        rw [located]
        cases next with
        | leave => exact absurd rfl inside
        | _ => nofun

/-- A rank that enters a call is through with no block. -/
theorem ThreadEffect.fresh {source : Fin setting.numprocs}
    (effect : state.ThreadEffect source (.enter source) thread) (target : Fin setting.numprocs) :
    ¬ thread.Filled source target := by
  intro filled
  unfold Thread.Filled at filled
  cases effect with
  | stays other => exact other rfl
  | enters _ either =>
      rcases either with rfl | rfl
      · exact filled
      · simp only [turnsBefore_start source.isLt] at filled
        exact Nat.not_lt_zero _ filled
  | moves _ next => cases next

/-- A rank gets through with a block when its turn has come or at the copy. -/
theorem ThreadEffect.filled {source rank : Fin setting.numprocs}
    (effect : state.ThreadEffect source event thread) (coordinated : state.Coordinated)
    (filled : thread.Filled source rank) :
    (thread.calls = (state.threads source).calls ∧
        thread.entryMem = (state.threads source).entryMem) ∧
      ((state.threads source).Filled source rank ∨
        (state.threads source).stage = .writing rank ∧
          ((∃ call outcome, event = .write source call outcome) ∨
            event = .copy source ∧ source = rank)) := by
  have inside := source.isLt
  cases effect with
  | stays => exact ⟨⟨rfl, rfl⟩, Or.inl filled⟩
  | enters outside either => exact absurd filled (ThreadEffect.fresh (.enters outside either) rank)
  | moves located next =>
      refine ⟨⟨rfl, rfl⟩, ?_⟩
      cases next with
      | gather =>
          unfold Thread.Filled at filled
          simp only [turnsBefore_start inside] at filled
          exact absurd filled (Nat.not_lt_zero _)
      | @write dst call outcome other =>
          have below := (coordinated.valid source).dst dst located
          unfold Thread.Filled at filled ⊢
          simp only [turnsBefore_next inside below other] at filled
          simp only [located]
          rcases Nat.lt_or_eq_of_le (Nat.le_of_lt_succ filled) with earlier | now
          · exact Or.inl earlier
          · refine Or.inr ⟨?_, Or.inl ⟨call, outcome, rfl⟩⟩
            rw [turnsBefore_inj inside rank.isLt below now]
      | copy =>
          by_cases own : source = rank
          · subst own
            exact Or.inr ⟨located, Or.inr ⟨rfl, rfl⟩⟩
          · apply Or.inl
            unfold Thread.Filled
            simp only [located, turnsBefore_self]
            exact turnsBefore_lt inside rank.isLt fun same => own (Fin.ext same.symm)
      | flush | arrive | leave =>
          apply Or.inl
          unfold Thread.Filled
          simp only [located]

theorem MemoryEffect.enter {rank actor : Fin setting.numprocs} {mem : ℕ → UInt8}
    (effect : state.MemoryEffect rank (.enter actor) mem) : mem = (state.node rank).mem := by
  cases effect with
  | same => rfl

/-- During a call the send buffer of a rank stays as it is. -/
theorem MemoryEffect.frozen {rank : Fin setting.numprocs} {mem : ℕ → UInt8}
    (effect : state.MemoryEffect rank event mem) (inside : (state.threads rank).stage ≠ .outside)
    (target : Fin setting.numprocs) :
    readBlock mem (setting.sendBlock rank target) setting.size =
      readBlock (state.node rank).mem (setting.sendBlock rank target) setting.size := by
  cases effect with
  | same => rfl
  | stored outside => exact absurd outside inside
  | copied =>
      apply readBlock_writeBlock_apart _ _
      rw [length_readBlock]
      exact setting.sendBlock_apart rank target rank
  | @landed source posted carried =>
      apply readBlock_writeBlock_apart _ _
      rw [want, length_readBlock]
      exact setting.sendBlock_apart rank target source

/-- A block that a rank has not returned with yet stays as it is, unless its write
lands or it is copied. -/
theorem MemoryEffect.block {source rank : Fin setting.numprocs} {mem : ℕ → UInt8}
    (effect : state.MemoryEffect rank event mem)
    (awaits : (state.threads rank).Awaits (state.threads source).calls) :
    readBlock mem (setting.recvBlock source rank) setting.size = state.block source rank ∨
      readBlock mem (setting.recvBlock source rank) setting.size = state.want source rank ∨
        source = rank ∧ event = .copy source := by
  cases effect with
  | same => exact Or.inl rfl
  | stored outside safe =>
      rcases awaits with below | ⟨-, inside⟩
      · exact Or.inl (safe source below)
      · exact absurd outside inside
  | copied =>
      by_cases own : source = rank
      · subst own
        exact Or.inr (Or.inr ⟨rfl, rfl⟩)
      · apply Or.inl
        apply readBlock_writeBlock_apart
        rw [length_readBlock]
        exact setting.recvBlock_apart own rank
  | @landed origin posted carried =>
      by_cases same : source = origin
      · subst same
        refine Or.inr (Or.inl ?_)
        have written := readBlock_writeBlock_self (state.node rank).mem
          (setting.recvBlock source rank) (state.want source rank)
        rwa [want, length_readBlock] at written
      · apply Or.inl
        apply readBlock_writeBlock_apart
        rw [want, length_readBlock]
        exact setting.recvBlock_apart same rank

/-- The invariant of the data. -/
structure Flowing (state : State setting) : Prop where
  carries : state.Carries
  /-- During a call the send buffer is as it was when the rank entered. -/
  frozen : ∀ rank, (state.threads rank).stage ≠ .outside → ∀ target,
    readBlock (state.node rank).mem (setting.sendBlock rank target) setting.size =
      state.want rank target
  /-- A block that a rank is through with is in flight or in its place, until the
  receiver has returned from the call. -/
  landed : ∀ source rank, (state.threads source).Filled source rank →
    (state.threads rank).Awaits (state.threads source).calls →
      ((state.threads source).stage.Requests ∧
          (state.node source).Unsettled (setting.worldRank rank)) ∨
        state.block source rank = state.want source rank
  flushing : ∀ rank, (state.threads rank).stage = .flushing → (state.node rank).Flushing

end State

/-- Every post of the collective succeeds. -/
def Event.Succeeds : Event setting → Prop
  | .write _ _ outcome => outcome = .accepted
  | _ => True

namespace Step

variable {state state' : State setting} {event : Event setting} {labels : List (Label nprocs)}

/-- A rank that enters the barrier has no request in flight. -/
theorem arrive_settled {rank : Fin setting.numprocs} (step : Step state (.arrive rank) state')
    (reached : (Cluster.system nprocs).Reaches labels state.cluster) (flowing : state.Flowing)
    (peer : Fin nprocs) : (state.node rank).outstanding peer = 0 := by
  cases step with
  | arrive stage idle =>
      refine Node.reaches_flushed (reaches_node reached _) ?_ peer
      cases flowing.flushing rank stage with
      | inside inside =>
          rw [idle] at inside
          cases inside
      | returned _ flushed => exact flushed

theorem carries (step : Step state event state')
    (reached : (Cluster.system nprocs).Reaches labels state.cluster)
    (coordinated : state.Coordinated) (flowing : state.Flowing) : state'.Carries := by
  intro actor peer posted member opcode
  rcases step.request_origin coordinated member opcode with
    queued | ⟨source, rank, rfl, rfl, other, stage, isWrite, address, data⟩
  · obtain ⟨source, rank, rfl, rfl, carried⟩ := flowing.carries actor peer posted queued opcode
    refine ⟨source, rank, rfl, rfl, carried.other, ?_, carried.opcode, carried.address, ?_⟩
    · rcases (step.thread_effect source).requests carried.requests with requests | rfl
      · exact requests
      · have settled := step.arrive_settled reached flowing (setting.worldRank rank)
        exact absurd settled (Node.Unsettled.queued queued opcode).outstanding_pos.ne'
    · have inside : (state.threads source).stage ≠ .outside := by
        intro outside
        have requests := carried.requests
        rw [outside] at requests
        cases requests
      rw [carried.data, State.want, State.want, ((step.thread_effect source).keeps inside).2]
  · have inside : (state.threads source).stage ≠ .outside := by simp [stage]
    refine ⟨source, rank, rfl, rfl, other, ?_, isWrite, address, ?_⟩
    · have requests : (state.threads source).stage.Requests := by
        rw [stage]
        trivial
      rcases (step.thread_effect source).requests requests with requests | rfl
      · exact requests
      · cases step with
        | arrive flushing => exact absurd (flushing.symm.trans stage) (by simp)
    · rw [data, flowing.frozen source inside rank, State.want, State.want,
        ((step.thread_effect source).keeps inside).2]

theorem frozen (step : Step state event state') (flowing : state.Flowing)
    {rank : Fin setting.numprocs} (inside : (state'.threads rank).stage ≠ .outside)
    (target : Fin setting.numprocs) :
    readBlock (state'.node rank).mem (setting.sendBlock rank target) setting.size =
      state'.want rank target := by
  by_cases before : (state.threads rank).stage = .outside
  · obtain ⟨rfl, entryMem⟩ := (step.thread_effect rank).entered before inside
    rw [(step.memory_effect flowing.carries rank).enter, State.want, entryMem]
  · rw [(step.memory_effect flowing.carries rank).frozen before, flowing.frozen rank before,
      State.want, State.want, ((step.thread_effect rank).keeps before).2]

theorem copied_want {rank : Fin setting.numprocs} (step : Step state (.copy rank) state')
    (flowing : state.Flowing) : state'.block rank rank = state.want rank rank := by
  rw [step.copy_block]
  cases step with
  | copy stage => exact flowing.frozen rank (by simp [stage]) rank

theorem landed (step : Step state event state')
    (reached : (Cluster.system nprocs).Reaches labels state.cluster)
    (coordinated : state.Coordinated) (flowing : state.Flowing) (succeeds : event.Succeeds)
    {source rank : Fin setting.numprocs} (filled : (state'.threads source).Filled source rank)
    (awaits : (state'.threads rank).Awaits (state'.threads source).calls) :
    ((state'.threads source).stage.Requests ∧
        (state'.node source).Unsettled (setting.worldRank rank)) ∨
      state'.block source rank = state'.want source rank := by
  obtain ⟨⟨calls, entryMem⟩, cause⟩ := (step.thread_effect source).filled coordinated filled
  have want : state'.want source rank = state.want source rank := by
    rw [State.want, State.want, entryMem]
  rw [calls] at awaits
  have awaits := (step.thread_effect rank).awaits awaits
  rw [want]
  rcases cause with filled | ⟨stage, ⟨call, outcome, rfl⟩ | ⟨rfl, rfl⟩⟩
  · rcases flowing.landed source rank filled awaits with ⟨requests, unsettled⟩ | here
    · rcases step.unsettled reached flowing.carries unsettled with unsettled' | here
      · rcases (step.thread_effect source).requests requests with requests | rfl
        · exact Or.inl ⟨requests, unsettled'⟩
        · have settled := step.arrive_settled reached flowing (setting.worldRank rank)
          exact absurd settled unsettled.outstanding_pos.ne'
      · exact Or.inr here
    · apply Or.inr
      rcases (step.memory_effect flowing.carries rank).block awaits with kept | written | copied
      · exact kept.trans here
      · exact written
      · obtain ⟨rfl, rfl⟩ := copied
        exact step.copied_want flowing
  · cases show outcome = .accepted from succeeds
    refine Or.inl ⟨?_, step.write_queued coordinated stage⟩
    have requests : (state.threads source).stage.Requests := by
      rw [stage]
      trivial
    rcases (step.thread_effect source).requests requests with requests | event
    · exact requests
    · cases event
  · exact Or.inr (step.copied_want flowing)

theorem flushing (step : Step state event state') (flowing : state.Flowing)
    {rank : Fin setting.numprocs} (stage : (state'.threads rank).stage = .flushing) :
    (state'.node rank).Flushing := by
  -- The other ranks act, or this one continues its flush.
  have others {actor : Fin setting.numprocs} {action : Action nprocs} {cluster : Cluster nprocs}
      (before : (state.threads rank).stage = .flushing)
      (acting : (state.threads actor).stage ≠ .flushing)
      (acts : Cluster.Step state.cluster (.act (setting.worldRank actor) action) cluster) :
      (cluster (setting.worldRank rank)).Flushing := by
    apply acts.flushing (flowing.flushing rank before)
    rintro _ same
    injection same with same
    rw [setting.distinct same] at acting
    exact absurd before acting
  rcases (step.thread_effect rank).flushing stage with before | rfl
  · cases step with
    | @enterFirst actor _ _ _ outside =>
        have apart : rank ≠ actor := by
          rintro rfl
          exact absurd (before.symm.trans outside) (by simp)
        change (Function.update state.cluster _ _ (setting.worldRank rank)).Flushing
        rw [Function.update_of_ne fun equal => apart (setting.distinct equal)]
        exact flowing.flushing rank before
    | enterAgain | gather | arrive | leave | join => exact flowing.flushing rank before
    | write located _ _ _ acts => exact others before (by simp [located]) acts
    | fail located _ _ _ _ acts => exact others before (by simp [located]) acts
    | copy located acts => exact others before (by simp [located]) acts
    | flush located acts => exact others before (by simp [located]) acts
    | run acts permitted =>
        apply acts.flushing (flowing.flushing rank before)
        rintro action rfl process
        rcases (permitted.2 rank rfl).1 process with outside | busy
        · exact absurd (before.symm.trans outside) (by simp)
        · exact busy
  · cases step with
    | flush located acts => exact acts.own.2.zflush_flushing

/-- A step keeps the invariant of the data. -/
theorem flowing (step : Step state event state')
    (reached : (Cluster.system nprocs).Reaches labels state.cluster)
    (coordinated : state.Coordinated) (flowing : state.Flowing) (succeeds : event.Succeeds) :
    state'.Flowing where
  carries := step.carries reached coordinated flowing
  frozen _ inside target := step.frozen flowing inside target
  landed _ _ filled awaits := step.landed reached coordinated flowing succeeds filled awaits
  flushing _ stage := step.flushing flowing stage

end Step

theorem Initial.flowing {state : State setting} (initial : Initial state) : state.Flowing := by
  refine ⟨?_, ?_, ?_, ?_⟩
  · intro actor peer posted member
    rw [(initial.cluster actor).sendQueue_eq] at member
    cases member
  · intro rank inside
    exact absurd (initial.stage rank) inside
  · intro source rank filled
    unfold Thread.Filled at filled
    simp only [initial.stage, initial.calls] at filled
    exact absurd filled (Nat.lt_irrefl 0)
  · intro rank stage
    exact absurd ((initial.stage rank).symm.trans stage) nofun

variable {history : List (Event setting)} {state : State setting}

/-- The invariant of the data holds in every run whose posts succeed. -/
theorem reaches_flowing (reached : (system setting).Reaches history state)
    (succeeds : ∀ event ∈ history, event.Succeeds) : state.Flowing := by
  revert succeeds
  refine reached.induction
    (motive := fun history state => (∀ event ∈ history, event.Succeeds) → state.Flowing) ?_ ?_
  · intro start initial _
    exact initial.flowing
  · intro events before event after earlier flowing step succeeds
    obtain ⟨labels, history⟩ := reaches_cluster earlier
    refine step.flowing history (reaches_coordinated earlier) (flowing ?_) (succeeds event ?_)
    · intro other member
      exact succeeds other (List.mem_append_left _ member)
    · exact List.mem_append_right _ (List.mem_singleton_self _)

end Ympi.Collective
