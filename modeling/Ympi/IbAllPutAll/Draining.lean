import Ympi.IbAllPutAll.Progress

/-! # Leaving the wait loop

A rank leaves the wait loop of an iteration when all ranks have entered the barrier. Then all
messages of the iteration have been delivered, so each of those to the rank has been handled or is
in its completion queue. It may have come there after the last poll, and then the rank goes on
without it.
-/

namespace Ympi.IbAllPutAll

open Foundation

variable {nprocs : ℕ}

/-- A rank has handled all messages that the others send to it in an iteration. -/
def State.Drained (state : State nprocs) (rank : Fin nprocs) (iteration : ℕ) : Prop :=
  ∀ source, source ≠ rank → ∀ i < 1024, dest source i = rank →
    ⟨source, iteration, i⟩ ∈ (state.ranks rank).handled

/-- No message of its iteration is left in the completion queue of a rank. -/
def State.Polled (state : State nprocs) (rank : Fin nprocs) : Prop :=
  ∀ message ∈ received (state.ranks rank).cq, message.iteration ≠ (state.ranks rank).iteration

/-- A rank that leaves the wait loop has polled all messages of its iteration. -/
def PolledAtLeave (before : State nprocs) (label : Label nprocs) (_after : State nprocs) : Prop :=
  ∀ rank, label = .move rank .leave → before.Polled rank

namespace Rank

variable {rank : Rank nprocs}

theorem barriers_le : rank.barriers ≤ rank.iteration + 1 := by
  rw [barriers]
  split
  next => exact Nat.le_succ _
  next => split <;> omega
  next => split <;> omega
  next => exact le_rfl

/-- A rank that has entered the barrier of its iteration has posted all messages, and counted all
sends. -/
theorem entered (requested : rank.Requested) (inside : rank.iteration < rank.barriers) :
    rank.turn = 1024 ∧ rank.scount ≤ rank.scnt := by
  have counted {progress : Progress} (found : rank.progress = some progress)
      (barriers : rank.barriers =
        if progress.bReq then rank.iteration + 1 else rank.iteration) :
      progress.numSent ≤ progress.scnt := by
    rw [barriers] at inside
    split at inside
    next request => exact ((requested progress found).mp request).2.ge
    next => exact absurd inside (lt_irrefl _)
  cases stage : rank.stage with
  | posting i scount =>
      simp only [barriers, stage] at inside
      exact absurd inside (lt_irrefl _)
  | polling progress =>
      simp only [turn, scount, scnt, stage]
      exact ⟨trivial, counted (by simp only [Rank.progress, stage]) (by simp only [barriers, stage])⟩
  | handling progress wc =>
      simp only [turn, scount, scnt, stage]
      exact ⟨trivial, counted (by simp only [Rank.progress, stage]) (by simp only [barriers, stage])⟩
  | flushing =>
      simp only [turn, scount, scnt, stage]
      exact ⟨trivial, le_rfl⟩

section Step

variable {total : ℕ} {own : Fin nprocs} {before after : Rank nprocs} {move : Move}

theorem Step.handled_subset (step : Step total own before move after) :
    before.handled ⊆ after.handled := by
  cases step with
  | recv => exact List.subset_append_left _ _
  | _ => exact List.Subset.refl _

theorem Step.left_eq (step : Step total own before move after) :
    after.left = before.left ∨ move = .leave ∧ after.left = before.iteration + 1 ∧
      before.left = before.iteration := by
  cases step with
  | leave stage => exact Or.inr ⟨rfl, rfl, by simp only [left, stage]⟩
  | skip _ stage | posted stage | poll stage | send stage | recv stage | again stage
  | flush stage =>
      refine Or.inl ?_
      simp only [left, stage]

end Step

end Rank

namespace State

variable {state after : State nprocs} {rank source : Fin nprocs} {label : Label nprocs} {total : ℕ}

/-- **Delivery before the barrier.** A message of an iteration whose barrier its source has entered
has come in at its destination. -/
theorem Ledger.mem_inbox (ledger : state.Ledger) {iteration i : ℕ}
    (inside : iteration < (state.ranks source).barriers) (other : source ≠ rank) (turn : i < 1024)
    (meets : dest source i = rank) :
    ⟨source, iteration, i⟩ ∈ (state.ranks rank).inbox := by
  have most := (state.ranks source).barriers_le
  have now : ⟨source, iteration, i⟩ ∈ messagesTo source rank iteration 1024 :=
    mem_messagesTo.mpr ⟨i, turn, meets, rfl⟩
  obtain ⟨posted, gone⟩ : ⟨source, iteration, i⟩ ∈ (state.ranks source).postedTo source rank ∧
      ⟨source, iteration, i⟩ ∉ state.flight source rank := by
    rcases Nat.lt_or_ge iteration (state.ranks source).iteration with earlier | same
    · refine ⟨mem_postedTo.mpr (Or.inl ⟨iteration, earlier, now⟩), fun member => ?_⟩
      have current : iteration = (state.ranks source).iteration :=
        ledger.current source rank _ member
      omega
    · obtain rfl : iteration = (state.ranks source).iteration := by omega
      obtain ⟨done, counted⟩ := Rank.entered (ledger.requested source) inside
      refine ⟨mem_postedTo.mpr (Or.inr ?_), ?_⟩
      · rw [done]
        exact now
      · rw [ledger.flight_nil counted]
        exact List.not_mem_nil
  rw [← ledger.conserved source rank other.symm] at posted
  rcases List.mem_append.mp posted with arrived | way
  · exact (List.mem_filter.mp arrived).1
  · exact absurd way gone

/-- No message comes in twice. -/
theorem Ledger.not_handled (ledger : state.Ledger) {message : Message nprocs}
    (waiting : message ∈ received (state.ranks rank).backlog) :
    message ∉ (state.ranks rank).handled := by
  intro done
  have other := ledger.others rank message (List.mem_append_left _ done)
  have nodup : ((state.ranks message.source).postedTo message.source rank).Nodup := nodup_postedTo
  rw [← ledger.conserved message.source rank other.symm, Rank.inbox, List.filter_append] at nodup
  have apart := (List.nodup_append.mp (List.nodup_append.mp nodup).1).2.2
  refine apart message (List.mem_filter.mpr ⟨done, ?_⟩) message
    (List.mem_filter.mpr ⟨waiting, ?_⟩) rfl
  · exact decide_eq_true rfl
  · exact decide_eq_true rfl

/-- A message that has come in is one of those that its source posts in an iteration. -/
theorem Ledger.of_mem_inbox (ledger : state.Ledger) {message : Message nprocs}
    (inside : message.iteration < (state.ranks message.source).barriers)
    (member : message ∈ (state.ranks rank).inbox) :
    message.source ≠ rank ∧ message.turn < 1024 ∧ dest message.source message.turn = rank := by
  have other := ledger.others rank message member
  have posted : message ∈ (state.ranks message.source).postedTo message.source rank := by
    rw [← ledger.conserved message.source rank other.symm]
    exact List.mem_append_left _ (List.mem_filter.mpr ⟨member, decide_eq_true rfl⟩)
  have listed : ∃ iteration, message ∈ messagesTo message.source rank iteration 1024 := by
    rcases mem_postedTo.mp posted with ⟨iteration, -, earlier⟩ | now
    · exact ⟨iteration, earlier⟩
    · refine ⟨(state.ranks message.source).iteration, ?_⟩
      have same : message.iteration = (state.ranks message.source).iteration := by
        obtain ⟨i, -, -, equal⟩ := mem_messagesTo.mp now
        rw [equal]
      rw [same] at inside
      rwa [(Rank.entered (ledger.requested _) inside).1] at now
  obtain ⟨iteration, found⟩ := listed
  obtain ⟨i, turn, meets, equal⟩ := mem_messagesTo.mp found
  rw [equal] at meets ⊢
  exact ⟨equal ▸ other, turn, meets⟩

/-- **A rank that leaves.** It has handled all messages of its iteration if and only if none of them
is in its completion queue. -/
theorem Ledger.drained_iff (ledger : state.Ledger)
    (step : Step total state (.move rank .leave) after) :
    state.Drained rank (state.ranks rank).iteration ↔ state.Polled rank := by
  cases step with
  | move own complete =>
      have inside := complete rfl
      cases own with
      | @leave progress stage request =>
          have backlog : (state.ranks rank).backlog = (state.ranks rank).cq := by
            simp only [Rank.backlog, Rank.wc, stage, List.nil_append]
          refine ⟨fun drained message waiting same => ?_, fun polled source other i turn meets => ?_⟩
          · rw [← backlog] at waiting
            have entered := inside message.source
            rw [← same] at entered
            obtain ⟨other, turn, meets⟩ := ledger.of_mem_inbox entered
              (List.mem_append_right _ waiting)
            have done := drained message.source other message.turn turn meets
            rw [← same] at done
            exact ledger.not_handled waiting done
          · have arrived := ledger.mem_inbox (inside source) other turn meets
            rcases List.mem_append.mp arrived with done | waiting
            · exact done
            · rw [backlog] at waiting
              exact absurd rfl (polled _ waiting)

/-- What a step does to a rank: nothing, or a call of it, or it posts a message, or a completion
comes into its queue. -/
theorem rank_cases (step : Step total state label after) (rank : Fin nprocs) :
    after.ranks rank = state.ranks rank ∨
      (∃ move, label = .move rank move ∧
        Rank.Step total rank (state.ranks rank) move (after.ranks rank)) ∨
      (∃ i scount, (state.ranks rank).stage = .posting i scount ∧ after.ranks rank =
        { state.ranks rank with stage := .posting (i + 1) (scount + 1) }) ∨
      ∃ completion, Rank.Enqueues completion (state.ranks rank) (after.ranks rank) := by
  cases step with
  | @move other move after own _ =>
      dsimp only
      by_cases same : rank = other
      · rw [same, Function.update_self]
        exact Or.inr (Or.inl ⟨move, rfl, own⟩)
      · exact Or.inl (Function.update_of_ne same _ _)
  | @post other i scount _ stage =>
      dsimp only
      by_cases same : rank = other
      · rw [same, Function.update_self]
        exact Or.inr (Or.inr (Or.inl ⟨i, scount, stage, rfl⟩))
      · exact Or.inl (Function.update_of_ne same _ _)
  | @deliver source other message rest wr srq =>
      dsimp only
      by_cases same : rank = other
      · rw [same, Function.update_self]
        exact Or.inr (Or.inr (Or.inr ⟨.recv wr.id message, rfl, rfl, rfl, rfl⟩))
      · exact Or.inl (Function.update_of_ne same _ _)
  | @complete other =>
      dsimp only
      by_cases same : rank = other
      · rw [same, Function.update_self]
        exact Or.inr (Or.inr (Or.inr ⟨.send, rfl, rfl, rfl, rfl⟩))
      · exact Or.inl (Function.update_of_ne same _ _)

/-- A rank handles more and more messages. -/
theorem handled_subset (step : Step total state label after) (rank : Fin nprocs) :
    (state.ranks rank).handled ⊆ (after.ranks rank).handled := by
  rcases rank_cases step rank with same | ⟨move, -, own⟩ | ⟨i, scount, -, moved⟩ |
    ⟨completion, enqueues⟩
  · rw [same]
    exact List.Subset.refl _
  · exact own.handled_subset
  · rw [moved]
    exact List.Subset.refl _
  · rw [enqueues.handled]
    exact List.Subset.refl _

/-- A rank leaves a wait loop only when it finds the barrier complete. -/
theorem left_step (step : Step total state label after) (rank : Fin nprocs) :
    (after.ranks rank).left = (state.ranks rank).left ∨
      label = .move rank .leave ∧ (after.ranks rank).left = (state.ranks rank).iteration + 1 ∧
        (state.ranks rank).left = (state.ranks rank).iteration := by
  rcases rank_cases step rank with same | ⟨move, found, own⟩ | ⟨i, scount, stage, moved⟩ |
    ⟨completion, enqueues⟩
  · rw [same]
    exact Or.inl rfl
  · rcases own.left_eq with kept | ⟨rfl, moved⟩
    · exact Or.inl kept
    · exact Or.inr ⟨found, moved⟩
  · refine Or.inl ?_
    rw [moved]
    simp only [Rank.left, stage]
  · refine Or.inl ?_
    simp only [Rank.left, enqueues.stage, enqueues.iteration]

/-- If a rank polls all messages before it leaves, what it has left is drained. -/
theorem reaches_drained {labels : List (Label nprocs)}
    (reached : ((system nprocs total).restrict PolledAtLeave).Reaches labels state)
    (rank : Fin nprocs) : ∀ iteration < (state.ranks rank).left, state.Drained rank iteration := by
  refine reached.induction (motive := fun _ state =>
    ∀ iteration < (state.ranks rank).left, state.Drained rank iteration) ?_ ?_
  · intro start initial iteration below
    simp only [Rank.left, initial.stage, initial.iteration] at below
    cases below
  · intro earlier before label after reached' drained step iteration below
    have kept (done : before.Drained rank iteration) : after.Drained rank iteration :=
      fun source other i turn meets =>
        handled_subset step.1 rank (done source other i turn meets)
    rcases left_step step.1 rank with same | ⟨rfl, moved, now⟩
    · rw [same] at below
      exact kept (drained iteration below)
    · rw [moved] at below
      rcases Nat.lt_succ_iff_lt_or_eq.mp below with before' | rfl
      · exact kept (drained iteration (now.symm ▸ before'))
      · have ledger := reaches_ledger reached'.of_restrict
        exact kept ((ledger.drained_iff step.1).mpr (step.2 rank rfl))

end State

open State

/-- **Draining.** In every run in which each rank has polled all messages of its iteration when it
leaves the wait loop, it has handled all of them in every iteration that it has left. In any run a
rank that leaves has handled all messages of the iteration if and only if it has polled them. -/
theorem iterations_drained (nprocs total : ℕ) :
    (∀ labels state, ((system nprocs total).restrict PolledAtLeave).Reaches labels state →
      ∀ rank, ∀ iteration < (state.ranks rank).left, state.Drained rank iteration) ∧
    ∀ labels state, (system nprocs total).Reaches labels state →
      ∀ rank after, Step total state (.move rank .leave) after →
        (state.Drained rank (state.ranks rank).iteration ↔ state.Polled rank) :=
  ⟨fun _ _ reached => reaches_drained reached,
    fun _ _ reached _ _ step => (reaches_ledger reached).drained_iff step⟩

/-- When all ranks have entered the barrier one of them can leave its wait loop. -/
theorem can_leave {total : ℕ} {state : State nprocs}
    (entered : ∀ rank, (state.ranks rank).iteration = 0 ∧ ∃ progress,
      (state.ranks rank).stage = .handling progress [] ∧ progress.bReq = true) (rank : Fin nprocs) :
    Step total state (.move rank .leave) { state with
      ranks := Function.update state.ranks rank { state.ranks rank with stage := .flushing } } := by
  obtain ⟨-, progress, stage, request⟩ := entered rank
  refine .move (.leave stage request) fun _ other => ?_
  obtain ⟨iteration, progress', stage', request'⟩ := entered other
  rw [(entered rank).1]
  simp only [Rank.barriers, stage', request', iteration, if_true]
  decide

/-- The second rank of a run leaves its first iteration with an empty completion queue. -/
theorem iterations_drained_second : ∃ labels state,
    ((system 2 1).restrict PolledAtLeave).Reaches labels state ∧
      (state.ranks secondRank).left = 1 ∧ state.Drained secondRank 0 := by
  obtain ⟨labels, state, ⟨start, initial, execution⟩, entered, empty, -⟩ := exists_both_entered
  have polled : state.Polled secondRank := by
    intro message waiting
    rw [empty] at waiting
    cases waiting
  have reached : ((system 2 1).restrict PolledAtLeave).Reaches labels state := by
    refine ⟨start, initial, execution.restrict_mono fun before label after plain rank same => ?_⟩
    rw [same] at plain
    exact plain.elim
  have left := reached.step ⟨can_leave entered secondRank, fun rank same => by cases same; exact polled⟩
  have one : (Function.update state.ranks secondRank
      { state.ranks secondRank with stage := .flushing } secondRank).left = 1 := by
    rw [Function.update_self, Rank.left, (entered secondRank).1]
  exact ⟨_, _, left, one, (iterations_drained 2 1).1 _ _ left secondRank 0 (one ▸ Nat.one_pos)⟩

/-- The first rank of a run polls for the last time before the messages of the second one come in.
It leaves its first iteration without having handled them. -/
theorem first_leaves_early : ∃ labels state, (system 2 1).Reaches labels state ∧
    (state.ranks firstRank).left = 1 ∧ ¬ state.Drained firstRank 0 := by
  obtain ⟨labels, state, reached, entered, -, waiting⟩ := exists_both_entered
  have reached' := reached.of_restrict
  have step : Step 1 state (.move firstRank .leave) _ := can_leave entered firstRank
  refine ⟨_, _, reached'.step step, ?_, fun drained => ?_⟩
  · simp only [Function.update_self, Rank.left, (entered firstRank).1]
  · have before : state.Drained firstRank (state.ranks firstRank).iteration := by
      intro source other i turn meets
      rw [(entered firstRank).1]
      have done := drained source other i turn meets
      simp only [Function.update_self] at done
      exact done
    refine ((reaches_ledger reached').drained_iff step).mp before _ waiting ?_
    rw [(entered firstRank).1]

end Ympi.IbAllPutAll
