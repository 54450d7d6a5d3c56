import Ympi.Foundation.Sums
import Ympi.IbAllPutAll.Iterations

/-! # Where the messages are

Every message that a rank has posted to another one is on its way, or in the completion queue of
its destination, or has been handled there, and the messages of each source keep their order.
The sends of an iteration that have not completed are those of the messages on their way, and of
those whose completions the network or the completion queue still has. So when all sends of a rank
have completed nothing of it is on its way.
-/

namespace Ympi.IbAllPutAll

open Foundation

variable {nprocs : ℕ}

namespace Rank

variable (rank : Rank nprocs)

/-- The turns of `pp_post_send_1024` that the rank has done in its iteration. -/
def turn : ℕ :=
  match rank.stage with
  | .posting i _ => i
  | _ => 1024

/-- The completions that have been polled and not been handled. -/
def wc : List (Completion nprocs) :=
  match rank.stage with
  | .handling _ wc => wc
  | _ => []

/-- The completions that have not been handled. -/
def backlog : List (Completion nprocs) :=
  rank.wc ++ rank.cq

/-- The messages that have come in. -/
def inbox : List (Message nprocs) :=
  rank.handled ++ received rank.backlog

/-- The variables of the wait loop, if the rank is in it. -/
def progress : Option Progress :=
  match rank.stage with
  | .polling progress | .handling progress _ => some progress
  | _ => none

/-- The messages of the iteration that have been posted. -/
def scount : ℕ :=
  match rank.stage with
  | .posting _ scount => scount
  | .polling progress | .handling progress _ => progress.numSent
  | .flushing => 0

/-- The sends of the iteration that have been counted. -/
def scnt : ℕ :=
  match rank.stage with
  | .polling progress | .handling progress _ => progress.scnt
  | _ => 0

/-- The barrier has been requested if and only if all sends have been counted. -/
def Requested : Prop :=
  ∀ progress, rank.progress = some progress →
    (progress.bReq = true ↔ 0 < progress.numSent ∧ progress.scnt = progress.numSent)

variable {rank}

theorem Requested.congr {after : Rank nprocs} (requested : rank.Requested)
    (same : after.progress = rank.progress) : after.Requested := by
  rw [Requested, same]
  exact requested

end Rank

/-- The turns below `count` in which `source` posts a message to `target`. -/
def turnsTo (source target : Fin nprocs) (count : ℕ) : List ℕ :=
  (List.range count).filter fun i => dest source i = target

/-- The messages from `source` to `target` in the first turns of an iteration. -/
def messagesTo (source target : Fin nprocs) (iteration count : ℕ) : List (Message nprocs) :=
  (turnsTo source target count).map fun i => ⟨source, iteration, i⟩

/-- The messages that a rank has posted to `target` so far. -/
def Rank.postedTo (rank : Rank nprocs) (source target : Fin nprocs) : List (Message nprocs) :=
  (List.range rank.iteration).flatMap (fun iteration => messagesTo source target iteration 1024) ++
    messagesTo source target rank.iteration rank.turn

section Turns

variable {source target : Fin nprocs} {iteration count : ℕ}

theorem messagesTo_zero : messagesTo source target iteration 0 = [] :=
  rfl

theorem messagesTo_succ : messagesTo source target iteration (count + 1) =
    messagesTo source target iteration count ++
      if dest source count = target then [⟨source, iteration, count⟩] else [] := by
  rw [messagesTo, turnsTo, List.range_succ, List.filter_append, List.map_append]
  congr 1
  split
  next found => rw [List.filter_singleton, decide_eq_true found]; rfl
  next other => rw [List.filter_singleton, decide_eq_false other]; rfl

theorem mem_messagesTo {message : Message nprocs} :
    message ∈ messagesTo source target iteration count ↔
      ∃ i < count, dest source i = target ∧ message = ⟨source, iteration, i⟩ := by
  simp only [messagesTo, turnsTo, List.mem_map, List.mem_filter, List.mem_range,
    decide_eq_true_eq, and_assoc]
  exact exists_congr fun i => and_congr_right fun _ => and_congr_right fun _ => eq_comm

theorem nodup_messagesTo : (messagesTo source target iteration count).Nodup := by
  refine (List.nodup_range.filter _).map fun first second same => ?_
  exact (Message.mk.inj same).2.2

variable {rank : Rank nprocs} {message : Message nprocs}

theorem mem_postedTo : message ∈ rank.postedTo source target ↔
    (∃ iteration < rank.iteration, message ∈ messagesTo source target iteration 1024) ∨
      message ∈ messagesTo source target rank.iteration rank.turn := by
  simp only [Rank.postedTo, List.mem_append, List.mem_flatMap, List.mem_range]

theorem source_of_mem_postedTo (member : message ∈ rank.postedTo source target) :
    message.source = source := by
  rcases mem_postedTo.mp member with ⟨iteration, -, earlier⟩ | now
  · obtain ⟨i, -, -, rfl⟩ := mem_messagesTo.mp earlier
    rfl
  · obtain ⟨i, -, -, rfl⟩ := mem_messagesTo.mp now
    rfl

/-- No message is posted twice. -/
theorem nodup_postedTo : (rank.postedTo source target).Nodup := by
  have number {message : Message nprocs} {iteration count : ℕ}
      (member : message ∈ messagesTo source target iteration count) :
      message.iteration = iteration := by
    obtain ⟨i, -, -, rfl⟩ := mem_messagesTo.mp member
    rfl
  rw [Rank.postedTo, List.nodup_append, List.nodup_flatMap]
  refine ⟨⟨fun _ _ => nodup_messagesTo, ?_⟩, nodup_messagesTo, ?_⟩
  · refine List.nodup_range.imp fun {first second} apart message here there => apart ?_
    rw [← number here, number there]
  · intro first earlier second now same
    obtain ⟨iteration, below, member⟩ := List.mem_flatMap.mp earlier
    have before := List.mem_range.mp below
    rw [← number member, same, number now] at before
    exact lt_irrefl _ before

end Turns

section Completions

variable {first second : List (Completion nprocs)} {id : ℕ} {message : Message nprocs}

theorem received_append : received (first ++ second) = received first ++ received second :=
  List.filterMap_append

theorem receivedIds_append :
    receivedIds (first ++ second) = receivedIds first ++ receivedIds second :=
  List.filterMap_append

theorem sends_append : sends (first ++ second) = sends first + sends second :=
  List.countP_append

@[simp] theorem received_nil : received ([] : List (Completion nprocs)) = [] :=
  rfl

@[simp] theorem received_recv : received (.recv id message :: first) = message :: received first :=
  rfl

@[simp] theorem received_send : received (.send :: first) = received first :=
  rfl

@[simp] theorem sends_recv : sends (.recv id message :: first) = sends first :=
  List.countP_cons_of_neg (by simp [Completion.isSend])

@[simp] theorem sends_send : sends ((.send : Completion nprocs) :: first) = sends first + 1 :=
  List.countP_cons_of_pos rfl

end Completions

/-- What a rank keeps when it makes a call. -/
structure Rank.Keeps (rank : Fin nprocs) (before after : Rank nprocs) : Prop where
  inbox : after.inbox = before.inbox
  posted : ∀ target, target ≠ rank → after.postedTo rank target = before.postedTo rank target
  balanced : sends after.backlog + after.scnt + before.scount =
    sends before.backlog + before.scnt + after.scount
  requested : after.Requested
  iteration : after.iteration = before.iteration ∨ before.stage = .flushing

namespace Rank

variable {rank : Fin nprocs} {total : ℕ} {before after : Rank nprocs} {move : Move}

/-- A call of a rank that counts a send needs one that has not been counted. -/
theorem Step.keeps (step : Step total rank before move after) (requested : before.Requested)
    (most : sends before.backlog + before.scnt ≤ before.scount) : Keeps rank before after := by
  cases step with
  | @skip i scount _ stage _ own =>
      refine ⟨?_, fun target other => ?_, ?_, ?_, Or.inl rfl⟩
      · simp only [inbox, backlog, wc, stage]
      · have kept : messagesTo rank target before.iteration (i + 1) =
            messagesTo rank target before.iteration i := by
          rw [messagesTo_succ, own, if_neg other.symm, List.append_nil]
        simp only [postedTo, turn, stage, kept]
      · simp only [backlog, wc, scnt, Rank.scount, stage]
      · intro progress found
        cases found
  | posted stage =>
      refine ⟨?_, fun target _ => ?_, ?_, ?_, Or.inl rfl⟩
      · simp only [inbox, backlog, wc, stage]
      · simp only [postedTo, turn, stage]
      · simp only [backlog, wc, scnt, scount, stage]
      · intro progress found
        cases found
        refine ⟨fun set => absurd set Bool.false_ne_true, fun both => absurd both.2.symm both.1.ne'⟩
  | poll stage =>
      refine ⟨?_, fun target _ => ?_, ?_, ?_, Or.inl rfl⟩
      · simp only [inbox, backlog, wc, stage, List.nil_append, List.take_append_drop]
      · simp only [postedTo, turn, stage]
      · simp only [backlog, wc, scnt, scount, stage, List.nil_append, List.take_append_drop]
      · refine requested.congr ?_
        simp only [Rank.progress, stage]
  | @send progress wc post stage =>
      have counted : sends before.backlog = sends (wc ++ before.cq) + 1 := by
        simp only [backlog, Rank.wc, stage, List.cons_append, sends_send]
      refine ⟨?_, fun target _ => ?_, ?_, ?_, Or.inl rfl⟩
      · simp only [inbox, backlog, Rank.wc, stage, List.cons_append, received_send]
      · simp only [postedTo, turn, stage]
      · rw [counted]
        simp only [backlog, Rank.wc, scnt, scount, stage]
        omega
      · intro progress' found
        cases found
        have before' := requested progress (by simp only [Rank.progress, stage])
        simp only [counted, scnt, scount, stage] at most
        rw [Bool.or_eq_true, decide_eq_true_eq, before']
        simp only
        omega
  | @recv progress id message wc post outcome stage done =>
      refine ⟨?_, fun target _ => ?_, ?_, ?_, Or.inl rfl⟩
      · simp only [inbox, backlog, Rank.wc, stage, List.cons_append, received_recv,
          List.append_assoc, List.nil_append]
      · simp only [postedTo, turn, stage]
      · simp only [backlog, Rank.wc, scnt, scount, stage, List.cons_append, sends_recv]
      · intro progress' found
        cases found
        exact requested progress (by simp only [Rank.progress, stage])
  | again stage =>
      refine ⟨?_, fun target _ => ?_, ?_, ?_, Or.inl rfl⟩
      · simp only [inbox, backlog, wc, stage]
      · simp only [postedTo, turn, stage]
      · simp only [backlog, wc, scnt, scount, stage]
      · refine requested.congr ?_
        simp only [Rank.progress, stage]
  | @leave progress stage request =>
      have all := (requested progress (by simp only [Rank.progress, stage])).mp request
      refine ⟨?_, fun target _ => ?_, ?_, ?_, Or.inl rfl⟩
      · simp only [inbox, backlog, wc, stage]
      · simp only [postedTo, turn, stage]
      · simp only [backlog, wc, scnt, scount, stage]
        omega
      · intro progress found
        cases found
  | flush stage done =>
      refine ⟨?_, fun target _ => ?_, ?_, ?_, Or.inr stage⟩
      · simp only [inbox, backlog, wc, stage]
      · simp only [postedTo, turn, stage, List.range_succ, List.flatMap_append,
          List.flatMap_singleton, messagesTo_zero, List.append_nil]
      · simp only [backlog, wc, scnt, scount, stage]
      · intro progress found
        cases found

end Rank

namespace Rank

/-- A completion comes behind the others of a rank. -/
structure Enqueues (completion : Completion nprocs) (before after : Rank nprocs) : Prop where
  iteration : after.iteration = before.iteration
  stage : after.stage = before.stage
  handled : after.handled = before.handled
  cq : after.cq = before.cq ++ [completion]

namespace Enqueues

variable {completion : Completion nprocs} {ranks : Fin nprocs → Rank nprocs} {rank : Fin nprocs}
  {before after : Rank nprocs}

theorem backlog (enqueues : Enqueues completion before after) :
    after.backlog = before.backlog ++ [completion] := by
  simp only [Rank.backlog, wc, enqueues.stage, enqueues.cq, List.append_assoc]

theorem inbox (enqueues : Enqueues completion before after) :
    after.inbox = before.inbox ++ received [completion] := by
  rw [Rank.inbox, Rank.inbox, enqueues.handled, enqueues.backlog, received_append,
    List.append_assoc]

/-- Nothing else of any rank changes. -/
theorem all_iteration (enqueues : Enqueues completion (ranks rank) after) (other : Fin nprocs) :
    (Function.update ranks rank after other).iteration = (ranks other).iteration :=
  apply_update_eq (g := Rank.iteration) enqueues.iteration other

theorem all_posted (enqueues : Enqueues completion (ranks rank) after)
    (other source target : Fin nprocs) :
    (Function.update ranks rank after other).postedTo source target =
      (ranks other).postedTo source target := by
  refine apply_update_eq (g := fun rank : Rank nprocs => rank.postedTo source target) ?_ other
  simp only [postedTo, turn, enqueues.iteration, enqueues.stage]

theorem all_scnt (enqueues : Enqueues completion (ranks rank) after) (other : Fin nprocs) :
    (Function.update ranks rank after other).scnt = (ranks other).scnt := by
  refine apply_update_eq (g := Rank.scnt) ?_ other
  simp only [scnt, enqueues.stage]

theorem all_scount (enqueues : Enqueues completion (ranks rank) after) (other : Fin nprocs) :
    (Function.update ranks rank after other).scount = (ranks other).scount := by
  refine apply_update_eq (g := Rank.scount) ?_ other
  simp only [scount, enqueues.stage]

theorem all_requested (enqueues : Enqueues completion (ranks rank) after)
    (requested : ∀ other, (ranks other).Requested) :
    ∀ other, (Function.update ranks rank after other).Requested := by
  refine (Function.forall_update_iff ranks fun _ rank => rank.Requested).mpr
    ⟨(requested rank).congr ?_, fun other _ => requested other⟩
  simp only [progress, enqueues.stage]

end Enqueues

end Rank

section UpdatePair

variable {β : Type} {family : Fin nprocs → Fin nprocs → β} {source target : Fin nprocs} {value : β}

theorem updatePair_source : updatePair family source target value source =
    Function.update (family source) target value :=
  Function.update_self _ _ _

theorem updatePair_of_ne {other : Fin nprocs} (apart : other ≠ source) :
    updatePair family source target value other = family other :=
  Function.update_of_ne apart _ _

end UpdatePair

namespace State

/-- Where the messages of a state are. -/
structure Ledger (state : State nprocs) : Prop where
  self : ∀ rank, state.flight rank rank = []
  current : ∀ source target, ∀ message ∈ state.flight source target,
    message.iteration = (state.ranks source).iteration
  conserved : ∀ source target, target ≠ source →
    (state.ranks target).inbox.filter (fun message => message.source = source) ++
        state.flight source target = (state.ranks source).postedTo source target
  balanced : ∀ rank, state.unacked rank + sends (state.ranks rank).backlog +
    ∑ target, (state.flight rank target).length + (state.ranks rank).scnt =
      (state.ranks rank).scount
  requested : ∀ rank, (state.ranks rank).Requested
  others : ∀ rank, ∀ message ∈ (state.ranks rank).inbox, message.source ≠ rank

variable {state : State nprocs} {rank source target : Fin nprocs}

/-- A rank that has counted all sends has nothing on its way. -/
theorem Ledger.flight_nil (ledger : state.Ledger)
    (counted : (state.ranks source).scount ≤ (state.ranks source).scnt) :
    state.flight source target = [] := by
  have balanced := ledger.balanced source
  have none : ∑ target, (state.flight source target).length = 0 := by omega
  exact List.length_eq_zero_iff.mp (Finset.sum_eq_zero_iff.mp none target (Finset.mem_univ target))

theorem Ledger.source_of_mem_flight (ledger : state.Ledger) {message : Message nprocs}
    (member : message ∈ state.flight source target) : target ≠ source ∧ message.source = source := by
  have apart : target ≠ source := by
    rintro rfl
    rw [ledger.self] at member
    cases member
  have listed : message ∈ (state.ranks source).postedTo source target := by
    rw [← ledger.conserved source target apart]
    exact List.mem_append_right _ member
  exact ⟨apart, source_of_mem_postedTo listed⟩

/-- A call of a rank keeps the ledger. -/
theorem Ledger.move (ledger : state.Ledger) {after : Rank nprocs}
    (keeps : Rank.Keeps rank (state.ranks rank) after) :
    Ledger { state with ranks := Function.update state.ranks rank after } := by
  have inbox (other : Fin nprocs) :
      (Function.update state.ranks rank after other).inbox = (state.ranks other).inbox :=
    apply_update_eq (g := Rank.inbox) keeps.inbox other
  refine ⟨ledger.self, ?_, ?_, ?_, ?_, ?_⟩
  · intro source target message member
    have current := ledger.current source target message member
    by_cases own : source = rank
    · rw [own] at current member ⊢
      simp only [Function.update_self]
      rcases keeps.iteration with same | flushing
      · rw [same]
        exact current
      · have counted : (state.ranks rank).scount ≤ (state.ranks rank).scnt := by
          simp only [Rank.scount, flushing]
          exact Nat.zero_le _
        rw [ledger.flight_nil counted] at member
        cases member
    · simp only [Function.update_of_ne own]
      exact current
  · intro source target apart
    simp only [inbox]
    rw [ledger.conserved source target apart]
    by_cases own : source = rank
    · rw [own] at apart ⊢
      rw [Function.update_self, keeps.posted target apart]
    · rw [Function.update_of_ne own]
  · intro other
    by_cases own : other = rank
    · have balanced := ledger.balanced rank
      have moved := keeps.balanced
      rw [own]
      simp only [Function.update_self]
      omega
    · simp only [Function.update_of_ne own]
      exact ledger.balanced other
  · exact (Function.forall_update_iff state.ranks fun _ rank => rank.Requested).mpr
      ⟨keeps.requested, fun other _ => ledger.requested other⟩
  · intro other
    dsimp only
    rw [inbox]
    exact ledger.others other

/-- Only what is in the queues of a rank and what it has posted matters to the ledger. -/
theorem Ledger.post (ledger : state.Ledger) {i scount : ℕ}
    (stage : (state.ranks rank).stage = .posting i scount) (apart : dest rank i ≠ rank) :
    Ledger { state with
      ranks := Function.update state.ranks rank { state.ranks rank with
        stage := .posting (i + 1) (scount + 1) }
      flight := updatePair state.flight rank (dest rank i)
        (state.flight rank (dest rank i) ++ [⟨rank, (state.ranks rank).iteration, i⟩]) } := by
  have inbox (other : Fin nprocs) : (Function.update state.ranks rank { state.ranks rank with
      stage := .posting (i + 1) (scount + 1) } other).inbox = (state.ranks other).inbox := by
    refine apply_update_eq (g := Rank.inbox) ?_ other
    simp only [Rank.inbox, Rank.backlog, Rank.wc, stage]
  refine ⟨?_, ?_, ?_, ?_, ?_, ?_⟩
  · intro other
    dsimp only
    by_cases own : other = rank
    · rw [own, updatePair_source, Function.update_of_ne apart.symm]
      exact ledger.self rank
    · rw [updatePair_of_ne own]
      exact ledger.self other
  · intro source target message member
    dsimp only at member ⊢
    by_cases own : source = rank
    · rw [own, updatePair_source] at member
      rw [own, Function.update_self]
      by_cases here : target = dest rank i
      · rw [here, Function.update_self] at member
        rcases List.mem_append.mp member with before | new
        · exact ledger.current _ _ message before
        · rw [List.mem_singleton.mp new]
      · rw [Function.update_of_ne here] at member
        exact ledger.current _ _ message member
    · rw [updatePair_of_ne own] at member
      rw [Function.update_of_ne own]
      exact ledger.current _ _ message member
  · intro source target other
    dsimp only
    rw [inbox]
    by_cases own : source = rank
    · have conserved := ledger.conserved rank target (own ▸ other)
      rw [own, updatePair_source, Function.update_self]
      simp only [Rank.postedTo, Rank.turn, stage] at conserved ⊢
      rw [messagesTo_succ, ← List.append_assoc, ← conserved]
      by_cases here : target = dest rank i
      · rw [here, Function.update_self, if_pos rfl, List.append_assoc]
      · rw [Function.update_of_ne here, if_neg (Ne.symm here), List.append_nil]
    · rw [updatePair_of_ne own, Function.update_of_ne own]
      exact ledger.conserved source target other
  · intro other
    dsimp only
    by_cases own : other = rank
    · have balanced := ledger.balanced rank
      have longer := sum_update_add List.length (state.flight rank) (dest rank i)
        (state.flight rank (dest rank i) ++ [⟨rank, (state.ranks rank).iteration, i⟩])
      rw [List.length_append, List.length_singleton] at longer
      rw [own, updatePair_source, Function.update_self]
      simp only [Rank.backlog, Rank.wc, Rank.scnt, Rank.scount, stage] at balanced ⊢
      omega
    · rw [updatePair_of_ne own, Function.update_of_ne own]
      exact ledger.balanced other
  · refine (Function.forall_update_iff state.ranks fun _ rank => rank.Requested).mpr
      ⟨fun progress found => ?_, fun other _ => ledger.requested other⟩
    cases found
  · intro other
    dsimp only
    rw [inbox]
    exact ledger.others other

/-- A message that is delivered comes behind the other completions of its destination. -/
theorem Ledger.deliver (ledger : state.Ledger) {message : Message nprocs}
    {rest : List (Message nprocs)} (first : state.flight source target = message :: rest) {id : ℕ}
    {after : Rank nprocs} (enqueues : Rank.Enqueues (.recv id message) (state.ranks target) after) :
    Ledger {
      ranks := Function.update state.ranks target after
      flight := updatePair state.flight source target rest
      unacked := Function.update state.unacked source (state.unacked source + 1) } := by
  have inside : message ∈ state.flight source target := by
    rw [first]
    exact List.mem_cons_self
  obtain ⟨apart, own⟩ := ledger.source_of_mem_flight inside
  have sent (other : Fin nprocs) : sends (Function.update state.ranks target after other).backlog =
      sends (state.ranks other).backlog := by
    refine apply_update_eq (g := fun rank : Rank nprocs => sends rank.backlog) ?_ other
    rw [enqueues.backlog, sends_append]
    rfl
  refine ⟨?_, ?_, ?_, ?_, enqueues.all_requested ledger.requested, ?_⟩
  · intro other
    dsimp only
    by_cases same : other = source
    · rw [same, updatePair_source, Function.update_of_ne apart.symm]
      exact ledger.self source
    · rw [updatePair_of_ne same]
      exact ledger.self other
  · intro from' to' message' member
    dsimp only at member ⊢
    rw [enqueues.all_iteration]
    refine ledger.current from' to' message' ?_
    by_cases same : from' = source
    · rw [same, updatePair_source] at member
      rw [same]
      by_cases here : to' = target
      · rw [here, Function.update_self] at member
        rw [here, first]
        exact List.mem_cons_of_mem _ member
      · rwa [Function.update_of_ne here] at member
    · rwa [updatePair_of_ne same] at member
  · intro from' to' other
    dsimp only
    rw [enqueues.all_posted, ← ledger.conserved from' to' other]
    by_cases here : to' = target
    · rw [here, Function.update_self, enqueues.inbox, List.filter_append]
      by_cases same : from' = source
      · have kept : (received [.recv id message]).filter
            (fun message => message.source = source) = [message] := by
          simp [own]
        rw [same, updatePair_source, Function.update_self, first, kept, List.append_assoc]
        rfl
      · have dropped : (received [.recv id message]).filter
            (fun message => message.source = from') = [] := by
          simp [own, Ne.symm same]
        rw [updatePair_of_ne same, dropped, List.append_nil]
    · rw [Function.update_of_ne here]
      by_cases same : from' = source
      · rw [same, updatePair_source, Function.update_of_ne here]
      · rw [updatePair_of_ne same]
  · intro other
    have balanced := ledger.balanced other
    dsimp only
    rw [sent, enqueues.all_scnt, enqueues.all_scount]
    by_cases same : other = source
    · have shorter := sum_update_add List.length (state.flight source) target rest
      rw [first, List.length_cons] at shorter
      rw [same] at balanced
      rw [same, updatePair_source, Function.update_self]
      omega
    · rw [updatePair_of_ne same, Function.update_of_ne same]
      exact balanced
  · intro other message' member
    dsimp only at member
    by_cases here : other = target
    · rw [here, Function.update_self, enqueues.inbox] at member
      rw [here]
      rcases List.mem_append.mp member with before | new
      · exact ledger.others target message' before
      · rw [List.mem_singleton.mp new, own]
        exact apart.symm
    · rw [Function.update_of_ne here] at member
      exact ledger.others other message' member

/-- A send that completes is behind the other completions of its rank. -/
theorem Ledger.complete (ledger : state.Ledger) {count : ℕ}
    (delivered : state.unacked rank = count + 1) {after : Rank nprocs}
    (enqueues : Rank.Enqueues .send (state.ranks rank) after) :
    Ledger { state with
      ranks := Function.update state.ranks rank after
      unacked := Function.update state.unacked rank count } := by
  have inbox (other : Fin nprocs) :
      (Function.update state.ranks rank after other).inbox = (state.ranks other).inbox := by
    refine apply_update_eq (g := Rank.inbox) ?_ other
    rw [enqueues.inbox]
    exact List.append_nil _
  refine ⟨ledger.self, ?_, ?_, ?_, enqueues.all_requested ledger.requested, ?_⟩
  · intro source target message member
    dsimp only
    rw [enqueues.all_iteration]
    exact ledger.current source target message member
  · intro source target other
    dsimp only
    rw [inbox, enqueues.all_posted]
    exact ledger.conserved source target other
  · intro other
    have balanced := ledger.balanced other
    dsimp only
    rw [enqueues.all_scnt, enqueues.all_scount]
    by_cases same : other = rank
    · rw [same] at balanced ⊢
      rw [Function.update_self, Function.update_self, enqueues.backlog, sends_append]
      rw [delivered] at balanced
      have one : sends [(.send : Completion nprocs)] = 1 := rfl
      omega
    · rw [Function.update_of_ne same, Function.update_of_ne same]
      exact balanced
  · intro other
    dsimp only
    rw [inbox]
    exact ledger.others other

/-- **Every step keeps the ledger.** -/
theorem Ledger.step {total : ℕ} {label : Label nprocs} {after : State nprocs}
    (ledger : state.Ledger) (step : Step total state label after) : after.Ledger := by
  cases step with
  | @move rank move after own _ =>
      refine ledger.move (own.keeps (ledger.requested rank) ?_)
      have balanced := ledger.balanced rank
      omega
  | post _ stage _ apart => exact ledger.post stage apart
  | deliver first _ => exact ledger.deliver first ⟨rfl, rfl, rfl, rfl⟩
  | complete delivered => exact ledger.complete delivered ⟨rfl, rfl, rfl, rfl⟩

/-- At the beginning nothing has been posted. -/
theorem Initial.ledger (initial : state.Initial) : state.Ledger := by
  have backlog (rank : Fin nprocs) : (state.ranks rank).backlog = [] := by
    simp only [Rank.backlog, Rank.wc, initial.stage, initial.cq, List.append_nil]
  have inbox (rank : Fin nprocs) : (state.ranks rank).inbox = [] := by
    rw [Rank.inbox, backlog, initial.handled]
    rfl
  refine ⟨fun rank => initial.flight rank rank, ?_, ?_, ?_, ?_, ?_⟩
  · intro source target message member
    rw [initial.flight] at member
    cases member
  · intro source target _
    simp only [inbox, initial.flight, Rank.postedTo, initial.iteration, Rank.turn, initial.stage]
    rfl
  · intro rank
    simp only [initial.unacked, backlog, initial.flight, Rank.scnt, Rank.scount, initial.stage]
    simp [sends]
  · intro rank progress found
    simp only [Rank.progress, initial.stage] at found
    cases found
  · intro rank message member
    rw [inbox] at member
    cases member

/-- The ledger of a state that is reached. -/
theorem reaches_ledger {total : ℕ} {labels : List (Label nprocs)}
    (reached : (system nprocs total).Reaches labels state) : state.Ledger := by
  refine reached.induction (motive := fun _ state => state.Ledger) ?_ ?_
  · intro start initial
    exact Initial.ledger initial
  · intro _ before label after _ ledger step
    exact Ledger.step ledger step

end State

end Ympi.IbAllPutAll
