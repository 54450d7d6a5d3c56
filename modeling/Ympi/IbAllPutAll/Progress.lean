import Ympi.IbAllPutAll.Ledger

/-! # What a rank can always do

The window of a rank and its queues make the steps of a receive window that receives and flushes.
As long as the window matches the receive queue a rank can handle all completions that have come to
it, post the messages of its iteration, and the network can deliver what is on its way and
complete the sends.
-/

namespace Ympi.IbAllPutAll

open Foundation

variable {nprocs total : ℕ}

/-- The receive window of a rank with the completions that have not been handled. -/
def Rank.window (rank : Rank nprocs) : QueueState :=
  ⟨rank.ctx, receivedIds rank.backlog, rank.srq⟩

@[simp] theorem receivedIds_recv {id : ℕ} {message : Message nprocs}
    {completions : List (Completion nprocs)} :
    receivedIds (.recv id message :: completions) = id :: receivedIds completions :=
  rfl

@[simp] theorem receivedIds_send {completions : List (Completion nprocs)} :
    receivedIds (.send :: completions) = receivedIds completions :=
  rfl

/-- Which event of its receive window a label is for a rank. -/
def Label.Shows (label : Label nprocs) (rank : Fin nprocs) (event : Event) : Prop :=
  match event with
  | .arrive => ∃ source, label = .deliver source rank
  | .recv result => label = .move rank (.handle result)
  | .flush result => label = .move rank (.flush result)

theorem Rank.Step.window {own : Fin nprocs} {before after : Rank nprocs} {move : Move}
    (step : Rank.Step total own before move after) : after.window = before.window ∨
      ∃ event, QueueStep before.window event after.window ∧ (Label.move own move).Shows own event := by
  cases step with
  | skip _ stage | posted stage | again stage | leave stage =>
      refine Or.inl ?_
      simp only [Rank.window, backlog, wc, stage]
  | poll stage =>
      refine Or.inl ?_
      simp only [Rank.window, backlog, wc, stage, List.take_append_drop, List.nil_append]
  | send stage =>
      refine Or.inl ?_
      simp only [Rank.window, backlog, Rank.wc, stage, List.cons_append, receivedIds_send]
  | recv stage done =>
      refine Or.inr ⟨.recv _, ?_, rfl⟩
      simp only [Rank.window, backlog, Rank.wc, stage, List.cons_append, receivedIds_recv]
      exact .recv done
  | flush stage done =>
      refine Or.inr ⟨.flush _, ?_, rfl⟩
      simp only [Rank.window, backlog, wc, stage]
      exact .flush done

namespace State

variable {state after : State nprocs} {rank source target : Fin nprocs} {label : Label nprocs}

/-- A step is at most one event of the receive window of a rank. -/
theorem window_step (step : Step total state label after) (rank : Fin nprocs) :
    (after.ranks rank).window = (state.ranks rank).window ∨
      ∃ event, QueueStep (state.ranks rank).window event (after.ranks rank).window ∧
        label.Shows rank event := by
  cases step with
  | @move other move after own _ =>
      dsimp only
      by_cases same : rank = other
      · rw [same, Function.update_self]
        exact own.window
      · rw [Function.update_of_ne same]
        exact Or.inl rfl
  | post _ stage =>
      refine Or.inl (apply_update_eq (g := Rank.window) ?_ rank)
      simp only [Rank.window, Rank.backlog, Rank.wc, stage]
  | @deliver source other message rest wr srq _ posted =>
      dsimp only
      by_cases same : rank = other
      · rw [same, Function.update_self]
        refine Or.inr ⟨.arrive, ?_, source, rfl⟩
        have arrived : Rank.window { state.ranks other with
            srq := srq
            cq := (state.ranks other).cq ++ [.recv wr.id message] } =
              ⟨(state.ranks other).ctx, receivedIds (state.ranks other).backlog ++ [wr.id], srq⟩ := by
          simp only [Rank.window, Rank.backlog, ← List.append_assoc, receivedIds_append]
          rfl
        rw [arrived, Rank.window, posted]
        exact .arrive
      · rw [Function.update_of_ne same]
        exact Or.inl rfl
  | @complete other =>
      refine Or.inl (apply_update_eq (g := Rank.window) ?_ rank)
      simp only [Rank.window, Rank.backlog, ← List.append_assoc, receivedIds_append]
      congr 1
      exact List.append_nil _

/-- **The windows of the ranks.** In every run the receive window of each rank is one that calls of
`pp_on_recv` and `pp_on_flush` reach. -/
theorem reaches_window {labels : List (Label nprocs)}
    (reached : (system nprocs total).Reaches labels state) (rank : Fin nprocs) :
    ∃ events, queueSystem.Reaches events (state.ranks rank).window := by
  refine reached.induction (motive := fun _ state =>
    ∃ events, queueSystem.Reaches events (state.ranks rank).window) ?_ ?_
  · intro start initial
    obtain ⟨events, reached⟩ := initial.window rank
    refine ⟨events, ?_⟩
    simp only [Rank.window, Rank.backlog, Rank.wc, initial.stage, initial.cq]
    exact reached
  · intro _ before label after _ earlier step
    obtain ⟨events, reached⟩ := earlier
    rcases window_step step rank with same | ⟨event, moved, -⟩
    · exact ⟨events, by rw [same]; exact reached⟩
    · exact ⟨events ++ [event], reached.step moved⟩

end State

/-- A call after which the rank is still in its iteration, and in which no call of
`ibv_post_srq_recv` fails. -/
def Move.Plain : Move → Prop
  | .handle post => post = .success
  | .leave | .flush _ => False
  | _ => True

/-- The calls of the ranks are of this kind. -/
def Plain (_before : State nprocs) (label : Label nprocs) (_after : State nprocs) : Prop :=
  match label with
  | .move _ move => move.Plain
  | _ => True

/-- The steps of an iteration up to its end. -/
def plainSystem (nprocs total : ℕ) : LabelledSystem (State nprocs) (Label nprocs) :=
  (system nprocs total).restrict Plain

/-- What a rank keeps in its wait loop: the iteration and the number of its sends. Its receive queue
gets no shorter. -/
structure Rank.Continues (before after : Rank nprocs) : Prop where
  iteration : after.iteration = before.iteration
  scount : after.scount = before.scount
  srq : before.srq.length ≤ after.srq.length

namespace Rank.Continues

theorem refl (rank : Rank nprocs) : rank.Continues rank :=
  ⟨rfl, rfl, le_rfl⟩

theorem trans {first second third : Rank nprocs} (front : first.Continues second)
    (back : second.Continues third) : first.Continues third :=
  ⟨back.iteration.trans front.iteration, back.scount.trans front.scount, front.srq.trans back.srq⟩

end Rank.Continues

namespace State

variable {state after : State nprocs} {rank source target : Fin nprocs} {label : Label nprocs}
  {labels : List (Label nprocs)}

/-- The messages are where the ledger says, and the windows match the receive queues. -/
structure Good (state : State nprocs) : Prop where
  ledger : state.Ledger
  windowed : ∀ rank, (state.ranks rank).window.Windowed
  some : ∀ rank, 1 ≤ (state.ranks rank).window.ctx.len

theorem Good.step (good : state.Good) (step : (plainSystem nprocs total).Step state label after) :
    after.Good := by
  have window (rank : Fin nprocs) :
      (after.ranks rank).window.Windowed ∧ 1 ≤ (after.ranks rank).window.ctx.len := by
    rcases window_step step.1 rank with same | ⟨event, moved, shows⟩
    · rw [same]
      exact ⟨good.windowed rank, good.some rank⟩
    · refine (good.windowed rank).step (good.some rank) moved ?_
      cases event with
      | arrive => trivial
      | recv post =>
          obtain rfl : label = .move rank (.handle post) := shows
          exact step.2
      | flush post =>
          obtain rfl : label = .move rank (.flush post) := shows
          exact step.2.elim
  exact ⟨good.ledger.step step.1, fun rank => (window rank).1, fun rank => (window rank).2⟩

theorem Good.execution (good : state.Good)
    (execution : (plainSystem nprocs total).Execution state labels after) : after.Good :=
  execution.invariant (motive := State.Good) (fun _ _ _ _ step good => good.step step) good

/-- A call of a rank that does not leave its wait loop does not depend on the others. -/
theorem call {own : Rank nprocs} {move : Move}
    (step : Rank.Step total rank (state.ranks rank) move own) (plain : move.Plain) :
    (plainSystem nprocs total).Step state (.move rank move)
      { state with ranks := Function.update state.ranks rank own } := by
  refine ⟨.move step ?_, plain⟩
  rintro rfl
  exact plain.elim

theorem call_again {own own' : Rank nprocs} {move : Move}
    (step : Rank.Step total rank own move own') (plain : move.Plain) :
    (plainSystem nprocs total).Step { state with ranks := Function.update state.ranks rank own }
      (.move rank move) { state with ranks := Function.update state.ranks rank own' } := by
  have moved : Rank.Step total rank (Function.update state.ranks rank own rank) move own' := by
    rwa [Function.update_self]
  have called := @call nprocs total { state with ranks := Function.update state.ranks rank own } _ _
    _ moved plain
  simpa only [Function.update_idem] using called

variable (total rank)

/-- **Posting.** A rank can post all messages of its iteration. -/
theorem exists_posted {i scount : ℕ} (more : (state.ranks rank).iteration < total)
    (stage : (state.ranks rank).stage = .posting i scount) (turn : i ≤ 1024) :
    ∃ labels numSent flight, (plainSystem nprocs total).Execution state labels { state with
        ranks := Function.update state.ranks rank { state.ranks rank with
          stage := .polling ⟨numSent, 0, 0, false⟩ }
        flight := Function.update state.flight rank flight } ∧
      scount ≤ numSent ∧ ∀ j, i ≤ j → j < 1024 → dest rank j ≠ rank → scount < numSent := by
  obtain ⟨left, rest⟩ : ∃ left, i + left = 1024 := ⟨1024 - i, by omega⟩
  induction left generalizing state i scount with
  | zero =>
      obtain rfl : i = 1024 := rest
      refine ⟨[.move rank .posted], scount, state.flight rank, ?_, le_rfl,
        fun j above below => by omega⟩
      rw [Function.update_eq_self]
      exact .single (call (.posted stage) trivial)
  | succ left ih =>
      by_cases own : dest rank i = rank
      · have step := call (.skip more stage (by omega) own) trivial
        obtain ⟨labels, numSent, flight, rest', most, sent⟩ := @ih
          { state with ranks := Function.update state.ranks rank { state.ranks rank with
            stage := .posting (i + 1) scount } } (i + 1) scount
          (by simpa only [Function.update_self]) (by simp only [Function.update_self])
          (by omega) (by omega)
        simp only [Function.update_self, Function.update_idem] at rest'
        refine ⟨_, numSent, flight, .cons step rest', most, fun j above below other => ?_⟩
        rcases Nat.eq_or_lt_of_le above with rfl | later
        · exact absurd own other
        · exact sent j later below other
      · have step : (plainSystem nprocs total).Step state (.post rank) { state with
            ranks := Function.update state.ranks rank { state.ranks rank with
              stage := .posting (i + 1) (scount + 1) }
            flight := updatePair state.flight rank (dest rank i)
              (state.flight rank (dest rank i) ++ [⟨rank, (state.ranks rank).iteration, i⟩]) } :=
          ⟨.post more stage (by omega) own, trivial⟩
        obtain ⟨labels, numSent, flight, rest', most, -⟩ := @ih
          { state with
            ranks := Function.update state.ranks rank { state.ranks rank with
              stage := .posting (i + 1) (scount + 1) }
            flight := updatePair state.flight rank (dest rank i)
              (state.flight rank (dest rank i) ++ [⟨rank, (state.ranks rank).iteration, i⟩]) }
          (i + 1) (scount + 1)
          (by simpa only [Function.update_self]) (by simp only [Function.update_self])
          (by omega) (by omega)
        simp only [updatePair, Function.update_self, Function.update_idem] at rest'
        exact ⟨_, numSent, flight, .cons step rest', Nat.le_of_succ_le most, fun _ _ _ _ => most⟩

/-- **Delivery.** What is on its way to a rank can be delivered if there is a work request for each
message. -/
theorem exists_delivered {messages : List (Message nprocs)}
    (way : state.flight source target = messages)
    (enough : messages.length ≤ (state.ranks target).srq.length) :
    ∃ labels srq completions, (plainSystem nprocs total).Execution state labels {
        ranks := Function.update state.ranks target { state.ranks target with
          srq := srq
          cq := (state.ranks target).cq ++ completions }
        flight := updatePair state.flight source target []
        unacked := Function.update state.unacked source (state.unacked source + messages.length) } ∧
      received completions = messages := by
  induction messages generalizing state with
  | nil =>
      refine ⟨[], (state.ranks target).srq, [], ?_, rfl⟩
      simp only [updatePair, ← way, Function.update_eq_self, List.append_nil]
      rw [way, List.length_nil, Nat.add_zero, Function.update_eq_self]
      exact .refl state
  | cons message messages ih =>
      cases posted : (state.ranks target).srq with
      | nil =>
          rw [posted] at enough
          cases enough
      | cons wr srq =>
          have step : (plainSystem nprocs total).Step state (.deliver source target) {
              ranks := Function.update state.ranks target { state.ranks target with
                srq := srq
                cq := (state.ranks target).cq ++ [.recv wr.id message] }
              flight := updatePair state.flight source target messages
              unacked := Function.update state.unacked source (state.unacked source + 1) } :=
            ⟨.deliver way posted, trivial⟩
          obtain ⟨labels, srq', completions, rest, arrived⟩ := @ih {
              ranks := Function.update state.ranks target { state.ranks target with
                srq := srq
                cq := (state.ranks target).cq ++ [.recv wr.id message] }
              flight := updatePair state.flight source target messages
              unacked := Function.update state.unacked source (state.unacked source + 1) }
            (by simp only [updatePair_source, Function.update_self])
            (by
              rw [posted] at enough
              simp only [Function.update_self]
              exact Nat.le_of_succ_le_succ enough)
          simp only [updatePair, Function.update_self, Function.update_idem, List.append_assoc,
            Nat.add_assoc, Nat.add_comm 1] at rest
          refine ⟨_, srq', .recv wr.id message :: completions, .cons step rest, ?_⟩
          rw [received_recv, arrived]

/-- **Completion.** The sends can complete whose messages have been delivered. -/
theorem exists_completed {count : ℕ} (delivered : state.unacked rank = count) :
    ∃ labels completions, (plainSystem nprocs total).Execution state labels { state with
        ranks := Function.update state.ranks rank { state.ranks rank with
          cq := (state.ranks rank).cq ++ completions }
        unacked := Function.update state.unacked rank 0 } := by
  induction count generalizing state with
  | zero =>
      refine ⟨[], [], ?_⟩
      simp only [← delivered, Function.update_eq_self, List.append_nil]
      exact .refl state
  | succ count ih =>
      have step : (plainSystem nprocs total).Step state (.complete rank) { state with
          ranks := Function.update state.ranks rank { state.ranks rank with
            cq := (state.ranks rank).cq ++ [.send] }
          unacked := Function.update state.unacked rank count } :=
        ⟨.complete delivered, trivial⟩
      obtain ⟨labels, completions, rest⟩ := @ih { state with
          ranks := Function.update state.ranks rank { state.ranks rank with
            cq := (state.ranks rank).cq ++ [.send] }
          unacked := Function.update state.unacked rank count }
        (by simp only [Function.update_self])
      simp only [Function.update_self, Function.update_idem, List.append_assoc] at rest
      exact ⟨_, _, .cons step rest⟩

/-- A rank can handle the next completion that it has polled. -/
theorem handle_step (good : state.Good) {completion : Completion nprocs}
    {wc : List (Completion nprocs)} {progress : Progress}
    (stage : (state.ranks rank).stage = .handling progress (completion :: wc)) :
    ∃ progress' own, (plainSystem nprocs total).Step state (.move rank (.handle .success))
        { state with ranks := Function.update state.ranks rank own } ∧
      own.stage = .handling progress' wc ∧ own.cq = (state.ranks rank).cq ∧
      (state.ranks rank).Continues own := by
  cases completion with
  | send =>
      refine ⟨_, _, call (.send stage) rfl, rfl, rfl, rfl, ?_, le_rfl⟩
      simp only [Rank.scount, stage]
  | recv id message =>
      have first : (state.ranks rank).window.arrived =
          id :: receivedIds (wc ++ (state.ranks rank).cq) := by
        simp only [Rank.window, Rank.backlog, Rank.wc, stage, List.cons_append, receivedIds_recv]
      obtain ⟨outcome, done, -⟩ := (good.windowed rank).recv first
      refine ⟨_, _, call (.recv stage done) rfl, rfl, rfl, rfl, ?_, ?_⟩
      · simp only [Rank.scount, stage]
      · simp only [List.length_append]
        exact Nat.le_add_right _ _

/-- **Handling.** A rank can handle all completions that it has polled. -/
theorem exists_handled (good : state.Good) {wc : List (Completion nprocs)} {progress : Progress}
    (stage : (state.ranks rank).stage = .handling progress wc) :
    ∃ labels progress' own, (plainSystem nprocs total).Execution state labels { state with
        ranks := Function.update state.ranks rank own } ∧
      own.stage = .handling progress' [] ∧ own.cq = (state.ranks rank).cq ∧
      (state.ranks rank).Continues own := by
  induction wc generalizing state progress with
  | nil =>
      refine ⟨[], progress, state.ranks rank, ?_, stage, rfl, .refl _⟩
      rw [Function.update_eq_self]
      exact .refl state
  | cons completion wc ih =>
      obtain ⟨progress', own, step, now, cq, continues⟩ := handle_step total rank good stage
      obtain ⟨labels, progress'', own', rest, empty, cq', continues'⟩ := @ih
        { state with ranks := Function.update state.ranks rank own } (good.step step) progress'
        (by simpa only [Function.update_self])
      simp only [Function.update_self, Function.update_idem] at rest cq' continues'
      exact ⟨_, progress'', own', .cons step rest, empty, cq'.trans cq, continues.trans continues'⟩

/-- A rank in the wait loop can handle all completions that have come in. -/
theorem exists_drained (good : state.Good) {progress : Progress}
    (stage : (state.ranks rank).stage = .polling progress) :
    ∃ labels progress' own, (plainSystem nprocs total).Execution state labels { state with
        ranks := Function.update state.ranks rank own } ∧
      own.stage = .handling progress' [] ∧ own.cq = [] ∧ (state.ranks rank).Continues own := by
  obtain ⟨length, count⟩ : ∃ length, (state.ranks rank).cq.length = length := ⟨_, rfl⟩
  induction length using Nat.strong_induction_on generalizing state progress with
  | _ length ih =>
      have polled := call (Rank.Step.poll stage : Rank.Step total rank _ _ _) trivial
      obtain ⟨labels, progress', own, handled, empty, cq, continues⟩ :=
        exists_handled total rank (good.step polled)
          (by simp only [Function.update_self]; rfl)
      simp only [Function.update_self, Function.update_idem] at handled cq continues
      have run := LabelledSystem.Execution.cons polled handled
      have first : (state.ranks rank).Continues own := by
        refine ⟨continues.iteration, ?_, continues.srq⟩
        have same := continues.scount
        simp only [Rank.scount, stage] at same ⊢
        exact same
      by_cases last : (state.ranks rank).cq.length ≤ 64
      · refine ⟨_, progress', own, run, empty, ?_, first⟩
        rw [cq]
        exact List.drop_eq_nil_of_le last
      · have again := @call_again nprocs total state rank _ _ _ (.again empty) trivial
        obtain ⟨labels', progress'', own', drained, empty', cq', continues'⟩ :=
          @ih own.cq.length (by rw [cq, List.length_drop]; omega) _
            ((good.execution run).step again) progress' (by simp only [Function.update_self])
            (by simp only [Function.update_self])
        simp only [Function.update_self, Function.update_idem] at drained continues'
        refine ⟨_, progress'', own', run.append (.cons again drained), empty', cq', first.trans ?_⟩
        refine ⟨continues'.iteration, ?_, continues'.srq⟩
        rw [continues'.scount]
        simp only [Rank.scount, empty]

/-- **Entering the barrier.** A rank that has posted its messages, and has none on its way but to
`target`, can come to its barrier with nothing in its completion queue. -/
theorem exists_entered (good : state.Good) (apart : target ≠ rank) {progress : Progress}
    (stage : (state.ranks rank).stage = .polling progress) (some : 0 < progress.numSent)
    (only : ∀ other, other ≠ target → state.flight rank other = [])
    (enough : (state.flight rank target).length ≤ (state.ranks target).srq.length) :
    ∃ labels after progress', (plainSystem nprocs total).Execution state labels after ∧
      (after.ranks rank).stage = .handling progress' [] ∧ progress'.bReq = true ∧
      (after.ranks rank).cq = [] ∧ (state.ranks rank).Continues (after.ranks rank) ∧
      (∀ source, source ≠ rank → after.flight source = state.flight source) ∧
      ∃ srq completions, received completions = state.flight rank target ∧
        after.ranks target = { state.ranks target with
          srq := srq
          cq := (state.ranks target).cq ++ completions } := by
  obtain ⟨front, srq, completions, delivered, arrived⟩ := exists_delivered total rfl enough
  obtain ⟨middle, acks, completed⟩ := exists_completed total rank rfl
  have run := delivered.append completed
  obtain ⟨back, progress', own, drained, empty, cq, continues⟩ :=
    exists_drained total rank (good.execution run)
      (by simp only [Function.update_self, Function.update_of_ne apart.symm]; exact stage)
  have whole := run.append drained
  simp only [Function.update_self, Function.update_of_ne apart.symm, Function.update_idem]
    at whole continues
  have same : own.scount = progress.numSent := by
    rw [continues.scount]
    simp only [Rank.scount, stage]
  have gone (other : Fin nprocs) : updatePair state.flight rank target [] rank other = [] := by
    rw [updatePair_source]
    by_cases here : other = target
    · rw [here, Function.update_self]
    · rw [Function.update_of_ne here, only other here]
  have ledger := (good.execution whole).ledger
  have balanced := ledger.balanced rank
  have request := ledger.requested rank progress'
  simp only [Function.update_self, gone, List.length_nil, Finset.sum_const_zero, Rank.backlog,
    Rank.wc, empty, cq, List.append_nil, sends, List.countP_nil, same] at balanced
  simp only [Function.update_self, Rank.progress, empty, forall_const] at request
  have counted : own.scnt = progress'.scnt := by simp only [Rank.scnt, empty]
  have sent : own.scount = progress'.numSent := by simp only [Rank.scount, empty]
  refine ⟨_, _, progress', whole, ?_, request.mpr ⟨by omega, by omega⟩, ?_, ?_, ?_, srq, completions,
    arrived, ?_⟩
  · simp only [Function.update_self]
    exact empty
  · simp only [Function.update_self]
    exact cq
  · simp only [Function.update_self]
    exact ⟨continues.iteration, continues.scount, continues.srq⟩
  · exact fun source other => updatePair_of_ne other
  · simp only [Function.update_of_ne apart, Function.update_self]

theorem Initial.good (initial : state.Initial)
    (full : ∀ rank, QueueState.Initial ⟨(state.ranks rank).ctx, [], (state.ranks rank).srq⟩) :
    state.Good := by
  have window (rank : Fin nprocs) : (state.ranks rank).window =
      ⟨(state.ranks rank).ctx, [], (state.ranks rank).srq⟩ := by
    simp only [Rank.window, Rank.backlog, Rank.wc, initial.stage, initial.cq]
    rfl
  refine ⟨initial.ledger, fun rank => ?_, fun rank => ?_⟩
  · rw [window]
    exact (QueueState.Initial.windowed (full rank)).1
  · rw [window]
    obtain ⟨-, -, length, -⟩ := QueueState.Initial.windowed (full rank)
    rw [length]
    decide

/-- Ranks may come to the main loop with all slots of their windows posted. -/
theorem exists_start (nprocs : ℕ) : ∃ state : State nprocs, state.Initial ∧ state.Good ∧
    ∀ rank, (state.ranks rank).srq.length = 1024 := by
  obtain ⟨⟨ctx, arrived, srq⟩, initial⟩ := exists_initial
  obtain ⟨windowed, -, length, none⟩ := QueueState.Initial.windowed initial
  obtain rfl : arrived = [] := none
  let start : State nprocs :=
    ⟨fun _ => ⟨0, .posting 0 0, ctx, srq, [], []⟩, fun _ _ => [], fun _ => 0⟩
  have first : start.Initial :=
    ⟨fun _ => ⟨_, .initial initial⟩, fun _ => rfl, fun _ => rfl, fun _ => rfl, fun _ => rfl,
      fun _ _ => rfl, fun _ => rfl⟩
  refine ⟨start, first, first.good fun _ => initial, fun _ => ?_⟩
  have count := congrArg List.length windowed.window
  simp only at length
  rw [QueueState.outstanding, length, length_ring, List.nil_append, List.length_map] at count
  exact count

/-- A message of the first iteration can be delivered into a receive queue with all slots. -/
theorem Ledger.flight_le (ledger : state.Ledger) (apart : target ≠ source)
    (first : (state.ranks source).iteration = 0) (turn : (state.ranks source).turn = 1024) :
    (state.flight source target).length ≤ 1024 := by
  have conserved := congrArg List.length (ledger.conserved source target apart)
  have most : (messagesTo source target 0 1024).length ≤ 1024 := by
    rw [messagesTo, turnsTo, List.length_map]
    exact (List.length_filter_le _ _).trans List.length_range.le
  rw [List.length_append, Rank.postedTo, first, turn, List.range_zero, List.flatMap_nil,
    List.nil_append] at conserved
  omega

/-- The ranks below `count` have posted the messages of the first iteration, and nothing has come
in. -/
structure Posted (state : State nprocs) (count : ℕ) : Prop where
  good : state.Good
  iteration : ∀ rank, (state.ranks rank).iteration = 0
  srq : ∀ rank, (state.ranks rank).srq.length = 1024
  inbox : ∀ rank, (state.ranks rank).inbox = []
  before : ∀ rank : Fin nprocs, count ≤ rank.val → (state.ranks rank).stage = .posting 0 0
  polling : ∀ rank : Fin nprocs, rank.val < count →
    ∃ progress, (state.ranks rank).stage = .polling progress ∧ 0 < progress.numSent

/-- The second turn of a rank is for another one. -/
theorem dest_one_ne (two : 2 ≤ nprocs) (rank : Fin nprocs) : dest rank 1 ≠ rank := by
  have inside := rank.isLt
  rw [Ne, Fin.ext_iff]
  simp only [dest]
  rcases Nat.lt_or_ge (rank.val + 1) nprocs with below | last
  · rw [Nat.mod_eq_of_lt below]
    omega
  · rw [show rank.val + 1 = nprocs by omega, Nat.mod_self]
    omega

theorem exists_posted_below (two : 2 ≤ nprocs) {count : ℕ} (inside : count ≤ nprocs) :
    ∃ labels state, (plainSystem nprocs 1).Reaches labels state ∧ state.Posted count := by
  induction count with
  | zero =>
      obtain ⟨start, initial, good, srq⟩ := exists_start nprocs
      refine ⟨[], start, .initial initial, good, initial.iteration, srq, fun rank => ?_,
        fun rank _ => initial.stage rank, fun _ below => absurd below (Nat.not_lt_zero _)⟩
      rw [Rank.inbox, initial.handled, Rank.backlog, Rank.wc, initial.stage, initial.cq]
      rfl
  | succ count ih =>
      obtain ⟨labels, state, reached, posted⟩ := ih (by omega)
      let own : Fin nprocs := ⟨count, inside⟩
      have stage := posted.before own le_rfl
      obtain ⟨labels', numSent, flight, execution, -, sent⟩ := exists_posted 1 own
        (by rw [posted.iteration]; decide) stage (by decide)
      refine ⟨_, _, reached.append execution, posted.good.execution execution, ?_, ?_, ?_, ?_, ?_⟩
      · intro rank
        refine Eq.trans (apply_update_eq (g := Rank.iteration) ?_ rank) (posted.iteration rank)
        rfl
      · intro rank
        refine Eq.trans (apply_update_eq (g := fun rank : Rank nprocs => rank.srq.length) ?_ rank)
          (posted.srq rank)
        rfl
      · intro rank
        refine Eq.trans (apply_update_eq (g := Rank.inbox) ?_ rank) (posted.inbox rank)
        simp only [Rank.inbox, Rank.backlog, Rank.wc, stage]
      · intro rank above
        have other : rank ≠ own := fun same => by
          rw [same] at above
          exact absurd above (by simp [own])
        simp only [Function.update_of_ne other]
        exact posted.before rank (by omega)
      · intro rank below
        by_cases same : rank = own
        · rw [same]
          simp only [Function.update_self]
          exact ⟨_, rfl, sent 1 (by decide) (by decide) (dest_one_ne two own)⟩
        · have other : rank.val ≠ count := fun equal => same (Fin.ext equal)
          simp only [Function.update_of_ne same]
          exact posted.polling rank (by omega)

theorem Posted.turn (posted : state.Posted nprocs) (rank : Fin nprocs) :
    (state.ranks rank).turn = 1024 := by
  obtain ⟨progress, stage, -⟩ := posted.polling rank rank.isLt
  simp only [Rank.turn, stage]

/-- What has been posted is on its way. -/
theorem Posted.mem_flight (posted : state.Posted nprocs) (apart : target ≠ source) {i : ℕ}
    (turn : i < 1024) (meets : dest source i = target) :
    ⟨source, 0, i⟩ ∈ state.flight source target := by
  have conserved := posted.good.ledger.conserved source target apart
  rw [posted.inbox, List.filter_nil, List.nil_append] at conserved
  rw [conserved]
  refine mem_postedTo.mpr (Or.inr ?_)
  rw [posted.iteration, posted.turn]
  exact mem_messagesTo.mpr ⟨i, turn, meets, rfl⟩

end State

/-- The two ranks of a run. -/
def firstRank : Fin 2 :=
  ⟨0, by decide⟩

def secondRank : Fin 2 :=
  ⟨1, by decide⟩

/-- Two ranks can enter the barrier of their first iteration so that the messages of the second one
come to the first one when this has done its last poll. -/
theorem exists_both_entered : ∃ labels state, (plainSystem 2 1).Reaches labels state ∧
    (∀ rank, (state.ranks rank).iteration = 0 ∧ ∃ progress,
      (state.ranks rank).stage = .handling progress [] ∧ progress.bReq = true) ∧
    (state.ranks secondRank).cq = [] ∧
    ⟨secondRank, 0, 1⟩ ∈ received (state.ranks firstRank).cq := by
  obtain ⟨labels, start, reached, posted⟩ := State.exists_posted_below le_rfl (le_refl 2)
  obtain ⟨first, polling, some⟩ := posted.polling firstRank (by decide)
  obtain ⟨second, polling', some'⟩ := posted.polling secondRank (by decide)
  have ledger := posted.good.ledger
  have only {source target : Fin 2} (apart : target ≠ source) (other : Fin 2) (third : other ≠ target) :
      start.flight source other = [] := by
    obtain rfl : other = source := by omega
    exact ledger.self other
  have short {source target : Fin 2} (apart : target ≠ source) :
      (start.flight source target).length ≤ 1024 :=
    ledger.flight_le apart (posted.iteration source) (posted.turn source)
  have apart : secondRank ≠ firstRank := by decide
  obtain ⟨front, mid, first', run, stage, request, empty, continues, kept, srq, completions, -, moved⟩ :=
    State.exists_entered 1 firstRank posted.good apart polling some (only apart)
      ((short apart).trans (posted.srq secondRank).ge)
  have way := kept secondRank apart
  obtain ⟨back, after, second', run', stage', request', empty', continues', -, srq', completions',
      arrived, moved'⟩ :=
    State.exists_entered 1 secondRank (posted.good.execution run) apart.symm
      (by rw [moved]; exact polling') some' (by rw [way]; exact only apart.symm)
      (by
        rw [way]
        exact (short apart.symm).trans ((posted.srq firstRank).ge.trans continues.srq))
  refine ⟨_, after, (reached.append run).append run', ?_, empty', ?_⟩
  · intro rank
    by_cases same : rank = secondRank
    · refine ⟨?_, second', ?_, request'⟩
      · rw [same, continues'.iteration, moved]
        exact posted.iteration secondRank
      · rw [same]
        exact stage'
    · obtain rfl : rank = firstRank := by omega
      refine ⟨?_, first', ?_, request⟩
      · rw [moved']
        exact continues.iteration.trans (posted.iteration firstRank)
      · rw [moved']
        exact stage
  · rw [moved', empty, List.nil_append, arrived, way]
    exact posted.mem_flight apart.symm (by decide) (by decide)

end Ympi.IbAllPutAll
