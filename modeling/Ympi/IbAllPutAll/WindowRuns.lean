import Ympi.Foundation.Execution
import Ympi.IbAllPutAll.ReceiveWindow

/-! # The window and the receive queue

The receive queue hands out the posted work requests in order, one for each message that arrives,
and the process handles their completions in this order. As long as no flush meets a full window
and no call of `ibv_post_srq_recv` fails, what has been posted and not yet been handled are the
slots of the window, in order. A flush of a full window writes before the list of work requests, and
a call that fails leaves a window that says that all slots are posted.
-/

namespace Ympi.IbAllPutAll

open Foundation

/-- The window of a process, the ids of the completions that it has not handled, and the receive
queue. -/
structure QueueState where
  ctx : PingpongContext
  arrived : List ℕ
  srq : List RecvWr

/-- The ids that have been posted and not been handled. -/
def QueueState.outstanding (state : QueueState) : List ℕ :=
  state.arrived ++ state.srq.map RecvWr.id

inductive Event where
  | arrive
  | recv (post : PostResult)
  | flush (post : PostResult)

inductive QueueStep : QueueState → Event → QueueState → Prop where
  | arrive {ctx : PingpongContext} {arrived : List ℕ} {wr : RecvWr} {srq : List RecvWr} :
      QueueStep ⟨ctx, arrived, wr :: srq⟩ .arrive ⟨ctx, arrived ++ [wr.id], srq⟩
  | recv {ctx : PingpongContext} {id : ℕ} {arrived : List ℕ} {srq : List RecvWr}
      {post : PostResult} {outcome : Outcome} : ppOnRecv ctx id post = .ok outcome →
      QueueStep ⟨ctx, id :: arrived, srq⟩ (.recv post) ⟨outcome.ctx, arrived, srq ++ outcome.posted⟩
  | flush {ctx : PingpongContext} {arrived : List ℕ} {srq : List RecvWr} {post : PostResult}
      {outcome : Outcome} : ppOnFlush ctx post = .ok outcome →
      QueueStep ⟨ctx, arrived, srq⟩ (.flush post) ⟨outcome.ctx, arrived, srq ++ outcome.posted⟩

/-- The process after the first refill in `main`. -/
def QueueState.Initial (state : QueueState) : Prop :=
  ∃ ctx outcome, ctx.Fresh ∧ ppPostRecvRefill ctx .success = .ok outcome ∧
    state = ⟨outcome.ctx, [], outcome.posted⟩

/-- The calls of `pp_on_recv` and `pp_on_flush` with the receive queue. -/
def queueSystem : LabelledSystem QueueState Event where
  Initial := QueueState.Initial
  Step := QueueStep

/-- No call of `ibv_post_srq_recv` fails, and a flush does not meet a full window. -/
def WithinWindow (before : QueueState) (event : Event) (_after : QueueState) : Prop :=
  match event with
  | .arrive => True
  | .recv post => post = .success
  | .flush post => post = .success ∧ before.ctx.len < maxSrqWr

/-- The posted slots are all slots that are not outstanding, and none of them twice. -/
structure PostsRest (outstanding : List ℕ) (posted : List RecvWr) : Prop where
  ids : ∀ slot, slot ∈ posted.map RecvWr.id ↔ slot < maxSrqWr ∧ slot ∉ outstanding
  nodup : (posted.map RecvWr.id).Nodup
  slots : ∀ wr ∈ posted, wr.slot = wr.id

namespace QueueState

/-- What is outstanding are the slots of the window. -/
structure Windowed (state : QueueState) : Prop where
  idx_lt : state.ctx.idx < maxSrqWr
  len_le : state.ctx.len ≤ maxSrqWr
  linked : Linked state.ctx.recvWrList
  forward : Forward state.ctx.recvWrList
  window : state.outstanding = ring maxSrqWr state.ctx.idx state.ctx.len

variable {state after : QueueState} {event : Event} {labels : List Event}

/-- A refill posts the slots outside the window, and the window gets all slots. -/
theorem Windowed.refill (windowed : state.Windowed) (room : state.ctx.len < maxSrqWr) :
    ∃ outcome, ppPostRecvRefill state.ctx .success = .ok outcome ∧ outcome.ret = 0 ∧
      outcome.ctx.idx = state.ctx.idx ∧ outcome.ctx.len = maxSrqWr ∧
      outcome.posted.length = maxSrqWr - state.ctx.len ∧
      PostsRest state.outstanding outcome.posted ∧
      Windowed ⟨outcome.ctx, state.arrived, state.srq ++ outcome.posted⟩ := by
  obtain ⟨list, posted, found, linked, forward, ids, slots⟩ :=
    PingpongContext.ppPostRecvRefill_success windowed.linked windowed.forward room
  have count := congrArg List.length ids
  rw [List.length_map, length_ring] at count
  refine ⟨_, found, rfl, rfl, rfl, count, ⟨fun slot => ?_, ?_, fun wr member => ?_⟩,
    ⟨windowed.idx_lt, le_rfl, linked, forward, ?_⟩⟩
  · rw [ids, windowed.window]
    exact mem_ring_rest windowed.idx_lt room.le
  · rw [ids]
    exact nodup_ring (Nat.sub_le _ _)
  · exact List.map_inj_left.mp (slots.trans ids.symm) wr member
  · have turn := ring_add maxSrqWr state.ctx.idx state.ctx.len (maxSrqWr - state.ctx.len)
    rw [Nat.add_sub_cancel' room.le] at turn
    have outstanding := windowed.window
    rw [QueueState.outstanding] at outstanding ⊢
    rw [List.map_append, ids, ← List.append_assoc, outstanding, turn]

/-- The next completion is that of the first slot of the window. -/
theorem Windowed.next (windowed : state.Windowed) {id : ℕ} {rest : List ℕ}
    (first : state.arrived = id :: rest) : state.ctx.idx = id ∧ 0 < state.ctx.len ∧
      rest ++ state.srq.map RecvWr.id =
        ring maxSrqWr ((state.ctx.idx + 1) % maxSrqWr) (state.ctx.len - 1) := by
  have window := windowed.window
  rw [outstanding, first] at window
  cases length : state.ctx.len with
  | zero =>
      rw [length] at window
      cases window
  | succ count =>
      rw [length, ring_succ windowed.idx_lt] at window
      obtain ⟨rfl, others⟩ := List.cons.inj window
      exact ⟨rfl, Nat.succ_pos count, others⟩

/-- Handling a completion moves the window, and refills it if it was in the last slot. -/
theorem Windowed.recv (windowed : state.Windowed) {id : ℕ} {rest : List ℕ}
    (first : state.arrived = id :: rest) :
    ∃ outcome, ppOnRecv state.ctx id .success = .ok outcome ∧ outcome.ret = 0 ∧
      (1 < state.ctx.len ∧ outcome.posted = [] ∧ outcome.ctx.len = state.ctx.len - 1 ∨
        state.ctx.len = 1 ∧ outcome.posted.length = maxSrqWr ∧ outcome.ctx.len = maxSrqWr ∧
          PostsRest (rest ++ state.srq.map RecvWr.id) outcome.posted) ∧
      Windowed ⟨outcome.ctx, rest, state.srq ++ outcome.posted⟩ := by
  obtain ⟨rfl, some, others⟩ := windowed.next first
  have moved : Windowed ⟨{ state.ctx with
      idx := (state.ctx.idx + 1) % maxSrqWr
      len := state.ctx.len - 1 }, rest, state.srq⟩ :=
    ⟨Nat.mod_lt _ (by decide), (Nat.sub_le _ _).trans windowed.len_le, windowed.linked,
      windowed.forward, others⟩
  by_cases more : 1 < state.ctx.len
  · refine ⟨_, PingpongContext.ppOnRecv_more more, rfl, Or.inl ⟨more, rfl, rfl⟩, ?_⟩
    rw [List.append_nil]
    exact moved
  · have last : state.ctx.len = 1 := by omega
    rw [last] at moved
    obtain ⟨outcome, found, ret, -, length, count, rest', windowed'⟩ := moved.refill (show 1 - 1 < maxSrqWr by decide)
    refine ⟨outcome, ?_, ret, Or.inr ⟨last, count, length, rest'⟩, windowed'⟩
    rw [PingpongContext.ppOnRecv_last last]
    exact found

/-- Before the first refill the window has no slots. -/
theorem windowed_of_fresh {ctx : PingpongContext} (fresh : ctx.Fresh) :
    Windowed ⟨ctx, [], []⟩ := by
  refine ⟨?_, ?_, fun entry inside => ?_, fun entry inside => ?_, ?_⟩
  · rw [fresh.idx]
    decide
  · rw [fresh.len]
    exact Nat.zero_le _
  · rw [maxSrqWr] at inside
    rw [fresh.links entry (by rw [maxSrqWr]; omega), if_neg (by omega)]
  · rw [fresh.links entry inside]
    split
    next => exact Or.inr rfl
    next => exact Or.inl rfl
  · rw [fresh.len]
    rfl

/-- The first refill posts all slots. -/
theorem Initial.windowed (initial : state.Initial) : state.Windowed ∧ state.ctx.idx = 0 ∧
    state.ctx.len = maxSrqWr ∧ state.arrived = [] := by
  obtain ⟨ctx, outcome, fresh, found, rfl⟩ := initial
  obtain ⟨outcome', found', -, first, length, -, -, windowed⟩ :=
    (windowed_of_fresh fresh).refill (by rw [fresh.len]; decide)
  cases found.symm.trans found'
  exact ⟨windowed, first.trans fresh.idx, length, rfl⟩

/-- A step that is within the window keeps it. -/
theorem Windowed.step (windowed : state.Windowed) (some : 1 ≤ state.ctx.len)
    (step : QueueStep state event after) (within : WithinWindow state event after) :
    after.Windowed ∧ 1 ≤ after.ctx.len := by
  cases step with
  | @arrive ctx arrived wr srq =>
      refine ⟨⟨windowed.idx_lt, windowed.len_le, windowed.linked, windowed.forward, ?_⟩, some⟩
      have window := windowed.window
      rw [outstanding, List.map_cons] at window
      rw [outstanding, ← window, List.append_assoc]
      rfl
  | recv done =>
      cases (show _ = PostResult.success from within)
      obtain ⟨outcome, found, -, moved, windowed'⟩ := windowed.recv rfl
      cases done.symm.trans found
      refine ⟨windowed', ?_⟩
      rcases moved with ⟨more, -, length⟩ | ⟨-, -, length, -⟩
      · rw [length]
        exact Nat.le_sub_of_add_le more
      · rw [length]
        decide
  | flush done =>
      obtain ⟨rfl, room⟩ := (show _ = PostResult.success ∧ _ from within)
      obtain ⟨outcome, found, -, -, length, -, -, windowed'⟩ := windowed.refill room
      cases done.symm.trans found
      refine ⟨windowed', ?_⟩
      rw [length]
      decide

/-- In runs within the window what is outstanding are the slots of the window. -/
theorem reaches_windowed (reached : (queueSystem.restrict WithinWindow).Reaches labels state) :
    state.Windowed ∧ 1 ≤ state.ctx.len := by
  refine reached.induction (motive := fun _ state => state.Windowed ∧ 1 ≤ state.ctx.len) ?_ ?_
  · intro start initial
    obtain ⟨windowed, -, length, -⟩ := Initial.windowed initial
    exact ⟨windowed, by rw [length]; decide⟩
  · intro _ before event after _ holds step
    exact holds.1.step holds.2 step.1 step.2

/-- When nothing waits a message can arrive in the first slot of the window. -/
theorem Windowed.arrives (windowed : state.Windowed)
    (some : 1 ≤ state.ctx.len) (none : state.arrived = []) :
    ∃ after, QueueStep state .arrive after ∧ after.ctx = state.ctx ∧
      after.arrived = [state.ctx.idx] := by
  obtain ⟨ctx, arrived, srq⟩ := state
  have window := windowed.window
  simp only at some none
  subst none
  obtain ⟨count, length⟩ := Nat.exists_eq_succ_of_ne_zero (Nat.one_le_iff_ne_zero.mp some)
  simp only [outstanding, List.nil_append] at window
  rw [length, ring_succ windowed.idx_lt] at window
  cases srq with
  | nil => cases window
  | cons wr rest =>
      refine ⟨_, .arrive, rfl, ?_⟩
      exact congrArg (fun id => [id]) (List.cons.inj window).1

end QueueState

open QueueState

/-- **The window matches the receive queue.** In every run in which no call of
`ibv_post_srq_recv` fails and no flush meets a full window, the outstanding slots are those of
the window in order, no assertion fails, and each refill posts as many slots as the window has not,
none of which is outstanding. -/
theorem window_matches_queue {labels : List Event} {state : QueueState}
    (reached : (queueSystem.restrict WithinWindow).Reaches labels state) :
    1 ≤ state.ctx.len ∧ state.ctx.len ≤ maxSrqWr ∧
      state.outstanding =
        (List.range state.ctx.len).map (fun turn => (state.ctx.idx + turn) % maxSrqWr) ∧
      (∀ id rest, state.arrived = id :: rest → state.ctx.idx = id ∧
        ∃ outcome, ppOnRecv state.ctx id .success = .ok outcome ∧
          (1 < state.ctx.len ∧ outcome.posted = [] ∨
            state.ctx.len = 1 ∧ outcome.posted.length = maxSrqWr - (state.ctx.len - 1) ∧
              PostsRest (rest ++ state.srq.map RecvWr.id) outcome.posted)) ∧
      (state.ctx.len < maxSrqWr →
        ∃ outcome, ppOnFlush state.ctx .success = .ok outcome ∧
          outcome.posted.length = maxSrqWr - state.ctx.len ∧
          PostsRest state.outstanding outcome.posted) := by
  obtain ⟨windowed, some⟩ := reaches_windowed reached
  refine ⟨some, windowed.len_le, windowed.window, fun id rest first => ?_, fun room => ?_⟩
  · refine ⟨(windowed.next first).1, ?_⟩
    obtain ⟨outcome, found, -, moved, -⟩ := windowed.recv first
    refine ⟨outcome, found, ?_⟩
    rcases moved with ⟨more, nothing, -⟩ | ⟨last, count, -, others⟩
    · exact Or.inl ⟨more, nothing⟩
    · exact Or.inr ⟨last, by rw [last]; exact count, others⟩
  · obtain ⟨outcome, found, -, -, -, count, others, -⟩ := windowed.refill room
    exact ⟨outcome, found, count, others⟩

/-- The context before the first refill. -/
def freshContext : PingpongContext where
  idx := 0
  len := 0
  recvWrList i := ⟨0, 0, if i = 1023 then none else some (i + 1)⟩

theorem exists_initial : ∃ state, QueueState.Initial state := by
  have fresh : freshContext.Fresh := ⟨rfl, rfl, fun _ _ => rfl⟩
  obtain ⟨outcome, found, -⟩ := (windowed_of_fresh fresh).refill (by decide)
  exact ⟨_, freshContext, outcome, fresh, found, rfl⟩

/-- After the first refill a message can arrive, be handled, and be followed by a second one. -/
theorem exists_second : ∃ state,
    (queueSystem.restrict WithinWindow).Reaches [.arrive, .recv .success, .arrive] state ∧
      state.arrived = [1] ∧ state.ctx.len = 1023 := by
  obtain ⟨start, initial⟩ := exists_initial
  obtain ⟨windowed, first, length, none⟩ := Initial.windowed initial
  have started : (queueSystem.restrict WithinWindow).Reaches [] start := .initial initial
  obtain ⟨⟨ctx, arrived, srq⟩, arrive, same, waits⟩ :=
    windowed.arrives (by rw [length]; decide) none
  have reached := started.step ⟨arrive, trivial⟩
  simp only at same waits
  subst same waits
  obtain ⟨windowed', -⟩ := reaches_windowed reached
  obtain ⟨outcome, done, -, moved, windowed''⟩ := windowed'.recv rfl
  have handled := reached.step ⟨.recv done, rfl⟩
  have turn : outcome.ctx.idx = 1 ∧ outcome.ctx.len = 1023 := by
    rw [PingpongContext.ppOnRecv_more (by rw [length]; decide)] at done
    cases done
    rw [first, length]
    exact ⟨rfl, rfl⟩
  obtain ⟨after, second, same, waits⟩ := windowed''.arrives (by rw [turn.2]; decide) rfl
  refine ⟨after, handled.step ⟨second, trivial⟩, ?_, ?_⟩
  · rw [waits, turn.1]
  · rw [same, turn.2]

/-- After the first message has been handled the second one is in the first slot of the window, its
completion posts nothing, and a flush posts the one slot that has been handled. -/
theorem window_matches_queue_second : ∃ state : QueueState, state.arrived = [1] ∧
    state.ctx.idx = 1 ∧ state.ctx.len = 1023 ∧
    state.outstanding =
      (List.range state.ctx.len).map (fun turn => (state.ctx.idx + turn) % maxSrqWr) ∧
    (∃ outcome, ppOnRecv state.ctx 1 .success = .ok outcome ∧ outcome.posted = []) ∧
    ∃ outcome, ppOnFlush state.ctx .success = .ok outcome ∧ outcome.posted.length = 1 ∧
      PostsRest state.outstanding outcome.posted := by
  obtain ⟨state, reached, arrived, length⟩ := exists_second
  obtain ⟨-, -, window, next, flush⟩ := window_matches_queue reached
  obtain ⟨first, outcome, done, moved⟩ := next 1 [] arrived
  obtain ⟨flushed, done', count, rest⟩ := flush (by rw [length]; decide)
  refine ⟨state, arrived, first, length, window, ⟨outcome, done, ?_⟩, flushed, done', ?_, rest⟩
  · rcases moved with ⟨-, nothing⟩ | ⟨last, -⟩
    · exact nothing
    · rw [length] at last
      cases last
  · rw [count, length]
    rfl

/-- **The safety of refills.** In every run in which no call of `ibv_post_srq_recv` fails and no
flush meets a full window, the handling of a completion stays inside the list of work requests,
and posts nothing or all slots. A flush in a state that is reached stays inside the list and posts
exactly the slots that have been consumed if and only if the window is not full. -/
theorem refill_safe_iff {labels : List Event} {state : QueueState}
    (reached : (queueSystem.restrict WithinWindow).Reaches labels state) :
    (∀ id rest, state.arrived = id :: rest →
      ∃ outcome, ppOnRecv state.ctx id .success = .ok outcome ∧
        (1 < state.ctx.len ∧ outcome.posted = [] ∨
          state.ctx.len = 1 ∧ PostsRest (rest ++ state.srq.map RecvWr.id) outcome.posted)) ∧
      ((∃ outcome, ppOnFlush state.ctx .success = .ok outcome ∧
          outcome.posted.length = maxSrqWr - state.ctx.len ∧
          PostsRest state.outstanding outcome.posted) ↔
        state.ctx.len < maxSrqWr) := by
  obtain ⟨windowed, -⟩ := reaches_windowed reached
  refine ⟨fun id rest first => ?_, ?_, fun room => ?_⟩
  · obtain ⟨outcome, found, -, moved, -⟩ := windowed.recv first
    refine ⟨outcome, found, ?_⟩
    rcases moved with ⟨more, nothing, -⟩ | ⟨last, -, -, others⟩
    · exact Or.inl ⟨more, nothing⟩
    · exact Or.inr ⟨last, others⟩
  · rintro ⟨outcome, found, -⟩
    refine lt_of_le_of_ne windowed.len_le fun full => ?_
    rw [PingpongContext.ppOnFlush_eq, PingpongContext.ppPostRecvRefill_full full] at found
    cases found
  · obtain ⟨outcome, found, -, -, -, count, others, -⟩ := windowed.refill room
    exact ⟨outcome, found, count, others⟩

/-- After the first message has been handled the completion of the second one can be handled, and a
flush posts the one slot that has been consumed. -/
theorem refill_safe_iff_second : ∃ state : QueueState, state.arrived = [1] ∧
    state.ctx.len = 1023 ∧
    (∃ outcome, ppOnRecv state.ctx 1 .success = .ok outcome ∧ outcome.posted = []) ∧
    ∃ outcome, ppOnFlush state.ctx .success = .ok outcome ∧ outcome.posted.length = 1 ∧
      PostsRest state.outstanding outcome.posted := by
  obtain ⟨state, reached, arrived, length⟩ := exists_second
  obtain ⟨next, flush⟩ := refill_safe_iff reached
  obtain ⟨outcome, done, moved⟩ := next 1 [] arrived
  obtain ⟨flushed, done', count, rest⟩ := flush.mpr (by rw [length]; decide)
  refine ⟨state, arrived, length, ⟨outcome, done, ?_⟩, flushed, done', ?_, rest⟩
  · rcases moved with ⟨-, nothing⟩ | ⟨last, -⟩
    · exact nothing
    · rw [length] at last
      cases last
  · rw [count, length]
    rfl

/-- A flush directly after the first refill writes the entry before the list of work requests. -/
theorem flush_full_outside : ∃ state, queueSystem.Reaches [] state ∧ state.ctx.len = maxSrqWr ∧
    ppOnFlush state.ctx .success = .error .outOfBounds := by
  obtain ⟨start, initial⟩ := exists_initial
  obtain ⟨-, -, length, -⟩ := Initial.windowed initial
  exact ⟨start, .initial initial, length, PingpongContext.ppPostRecvRefill_full length .success⟩

/-- A call of `ibv_post_srq_recv` that fails and has posted nothing. -/
def PostResult.PostsNothing : PostResult → Prop
  | .success => False
  | .error _ count => count = 0
  | .badWr count => count = 0

/-- The refill returns an error and leaves the window and the links as they were, so that a second
call posts what it was to post. -/
def Restores (ctx : PingpongContext) (post : PostResult) : Prop :=
  ∃ after ret, ppPostRecvRefill ctx post = .ok ⟨after, [], ret⟩ ∧ ret ≠ 0 ∧
    after.idx = ctx.idx ∧ after.len = ctx.len ∧ Linked after.recvWrList ∧
    ∃ outcome, ppPostRecvRefill after .success = .ok outcome ∧
      outcome.posted.map RecvWr.id =
        ring maxSrqWr ((ctx.idx + ctx.len) % maxSrqWr) (maxSrqWr - ctx.len)

theorem forward_postRefill {ctx : PingpongContext} (forward : Forward ctx.recvWrList)
    (room : ctx.len < maxSrqWr) (chain : List RecvWr) (post : PostResult) :
    Forward (postRefill ctx ctx.cutList (maxSrqWr - ctx.len - 1) (maxSrqWr - ctx.len) chain
      post).ctx.recvWrList := by
  cases post with
  | success => exact PingpongContext.forward_relinked forward room
  | error err count => exact PingpongContext.forward_cutList forward
  | badWr count => exact PingpongContext.forward_cutList forward

/-- A refill that ends keeps the list going forward. -/
theorem forward_refill {ctx : PingpongContext} (forward : Forward ctx.recvWrList)
    (most : ctx.len ≤ maxSrqWr) {post : PostResult} {outcome : Outcome}
    (done : ppPostRecvRefill ctx post = .ok outcome) :
    Forward outcome.ctx.recvWrList ∧ outcome.ctx.len = maxSrqWr := by
  rcases most.eq_or_lt with full | room
  · rw [PingpongContext.ppPostRecvRefill_full full] at done
    cases done
  · obtain ⟨count, -, found⟩ := PingpongContext.ppPostRecvRefill_ok forward room
    cases done.symm.trans (found post)
    refine ⟨forward_postRefill forward room _ post, ?_⟩
    cases post <;> rfl

theorem forward_recv {ctx : PingpongContext} (forward : Forward ctx.recvWrList)
    (most : ctx.len ≤ maxSrqWr) {id : ℕ} {post : PostResult} {outcome : Outcome}
    (done : ppOnRecv ctx id post = .ok outcome) :
    Forward outcome.ctx.recvWrList ∧ outcome.ctx.len ≤ maxSrqWr := by
  rw [ppOnRecv] at done
  split at done
  next =>
    by_cases last : ctx.len - 1 = 0
    · rw [if_pos last] at done
      obtain ⟨forward', length⟩ := @forward_refill { ctx with
        idx := (ctx.idx + 1) % maxSrqWr
        len := ctx.len - 1 } forward ((Nat.sub_le _ _).trans most) post outcome done
      exact ⟨forward', length.le⟩
    · rw [if_neg last] at done
      cases done
      exact ⟨forward, (Nat.sub_le _ _).trans most⟩
  next => cases done

/-- In every run the links go forward, and the window has at most all slots. -/
theorem reaches_forward {labels : List Event} {state : QueueState}
    (reached : queueSystem.Reaches labels state) :
    Forward state.ctx.recvWrList ∧ state.ctx.len ≤ maxSrqWr := by
  refine reached.induction (motive := fun _ state =>
    Forward state.ctx.recvWrList ∧ state.ctx.len ≤ maxSrqWr) ?_ ?_
  · intro start initial
    obtain ⟨windowed, -⟩ := Initial.windowed initial
    exact ⟨windowed.forward, windowed.len_le⟩
  · intro _ before event after _ ⟨forward, most⟩ step
    cases step with
    | arrive => exact ⟨forward, most⟩
    | recv done => exact forward_recv forward most done
    | flush done =>
        obtain ⟨forward', length⟩ := forward_refill forward most done
        exact ⟨forward', length.le⟩

/-- A refill that fails without posting anything leaves a window that has all slots and a list that is
cut. -/
theorem ppPostRecvRefill_fails {ctx : PingpongContext} (forward : Forward ctx.recvWrList)
    (room : ctx.len < maxSrqWr) {post : PostResult} (fails : post.PostsNothing) :
    ∃ ret : ℤ, ret ≠ 0 ∧ ppPostRecvRefill ctx post =
      .ok ⟨{ ctx with len := maxSrqWr, recvWrList := ctx.cutList }, [], ret⟩ := by
  obtain ⟨count, -, found⟩ := PingpongContext.ppPostRecvRefill_ok forward room
  cases post with
  | success => cases fails
  | error err count' =>
      cases (show count' = 0 from fails)
      exact ⟨err.val, err.property, found _⟩
  | badWr count' =>
      cases (show count' = 0 from fails)
      exact ⟨-1, by decide, found _⟩

/-- **A failed refill.** In every state that is reached in which the window is not full, a refill
for which `ibv_post_srq_recv` fails without posting anything does not restore the window: it returns
an error, but the window says that all slots are posted, a link stays cut, and a second call writes
outside the list. -/
theorem failed_refill_not_restored {labels : List Event} {state : QueueState}
    (reached : queueSystem.Reaches labels state) (room : state.ctx.len < maxSrqWr)
    {post : PostResult} (fails : post.PostsNothing) :
    ¬ Restores state.ctx post ∧
      ∃ after ret, ppPostRecvRefill state.ctx post = .ok ⟨after, [], ret⟩ ∧ ret ≠ 0 ∧
        after.idx = state.ctx.idx ∧ after.len = maxSrqWr ∧
        (after.recvWrList (maxSrqWr - state.ctx.len - 1)).next = none ∧
        ∀ again, ppPostRecvRefill after again = .error .outOfBounds := by
  obtain ⟨ret, failed, done⟩ := ppPostRecvRefill_fails (reaches_forward reached).1 room fails
  refine ⟨?_, _, ret, done, failed, rfl, rfl, ?_, PingpongContext.ppPostRecvRefill_full rfl⟩
  · rintro ⟨after, ret', done', -, -, same, -⟩
    cases done.symm.trans done'
    exact absurd same.symm room.ne
  · rw [PingpongContext.cutList_next, if_pos rfl]

/-- After the first message a refill that fails with an error does not restore the window. -/
theorem failed_refill_not_restored_handled : ∃ state : QueueState, state.ctx.len = 1023 ∧
    ¬ Restores state.ctx (.error ⟨12, by decide⟩ 0) := by
  obtain ⟨state, reached, -, length⟩ := exists_second
  exact ⟨state, length,
    (failed_refill_not_restored reached.of_restrict (by rw [length]; decide)
      (show PostResult.PostsNothing (.error ⟨12, by decide⟩ 0) from rfl)).1⟩

/-- After the first message a flush for which `ibv_post_srq_recv` fails with error 12 leaves a window
with 1024 slots instead of 1023, and a second flush writes outside the list. -/
theorem second_flush_outside : ∃ labels state after, queueSystem.Reaches labels state ∧
    state.ctx.len = 1023 ∧ ppOnFlush state.ctx (.error ⟨12, by decide⟩ 0) = .ok ⟨after, [], 12⟩ ∧
    after.len = 1024 ∧ ppOnFlush after .success = .error .outOfBounds := by
  obtain ⟨state, reached, -, length⟩ := exists_second
  obtain ⟨count, -, found⟩ := PingpongContext.ppPostRecvRefill_ok
    (reaches_forward reached.of_restrict).1 (show state.ctx.len < maxSrqWr by rw [length]; decide)
  exact ⟨_, state, _, reached.of_restrict, length, found _, rfl,
    PingpongContext.ppPostRecvRefill_full rfl .success⟩

end Ympi.IbAllPutAll
