import Mathlib.Algebra.Order.BigOperators.Group.Finset
import Ympi.Messaging.BufferConservation

/-! # The queues of the receive path

The pools of `pending_recv_queue[i]` and `vbuf_fetched` are sized apart from their
users. Conservation of the receive buffers bounds what all queues hold together, so
no enqueue finds a queue full; the queues store buffer numbers only, so the value -1
of a dequeue means an empty queue.
-/

namespace Ympi.Messaging

open LinkedList Foundation

variable {nprocs : ℕ}

namespace Context

variable {ctx : Context nprocs}

/-- A queue with a stored value or without one can be dequeued. -/
theorem dequeue_ne_error {poolSize : ℕ} (queue : PooledQueue Int poolSize) (halt : Halt) :
    queue.dequeue (-1) ≠ .error halt := by
  intro failed
  cases stored : queue.contents with
  | nil =>
      rw [PooledQueue.dequeue_nil (-1) stored] at failed
      cases failed
  | cons oldest rest =>
      obtain ⟨after, ok, -⟩ := PooledQueue.dequeue_cons (-1) stored
      rw [ok] at failed
      cases failed

/-- A dequeue yields -1 only in an empty queue when no -1 is stored. -/
theorem dequeue_minusOne {poolSize : ℕ} {queue after : PooledQueue Int poolSize}
    (proper : (-1 : Int) ∉ queue.contents) (performed : queue.dequeue (-1) = .ok (after, -1)) :
    queue.contents = [] := by
  rcases PooledQueue.dequeue_eq_ok_zero performed with ⟨empty, -⟩ | stored
  · exact empty
  · exact absurd (stored ▸ List.mem_cons_self) proper

/-- `process_wc` ends the process with status 1 only in the enqueue of a receive
completion. -/
theorem processWc_full {wc : Wc} (failed : ctx.processWc wc = .error (.exit 1)) :
    wc.isRecv = true ∧ ∃ source : Fin nprocs,
      qpnRank ctx.qps.arch ctx.qps.qpRank wc.qpNum = .ok (source.val : Int) ∧
      (ctx.rxWin.pendingRecvQueue source).enqueue wc.wrId.id = .error (.exit 1) := by
  have settles : ctx.decPending wc.wrId.id ≠ .error (.exit 1) := by
    intro decremented
    unfold decPending index at decremented
    split at decremented <;> cases decremented
  unfold processWc at failed
  split at failed
  next => cases failed
  next successful =>
    split at failed
    next => exact absurd failed settles
    next => exact absurd failed settles
    next => exact absurd failed settles
    next tag =>
      refine ⟨by simp [Wc.isRecv, tag], ?_⟩
      rcases error_of_bind failed with unranked | ⟨msgSrc, ranked, failed⟩
      · unfold qpnRank at unranked
        split at unranked
        · simp only at unranked
          split at unranked <;> cases unranked
        · cases unranked
      rcases error_of_bind failed with outside | ⟨source, found, failed⟩
      · unfold index at outside
        split at outside <;> cases outside
      refine ⟨source, by rw [ranked, index_eq_ok found], ?_⟩
      rcases error_of_bind failed with full | ⟨queue, enqueued, failed⟩
      · exact full
      · cases failed

end Context

/-- A posting call ends the process only at one of its assertions. -/
theorem PostCall.perform_eq_error {ctx : Context nprocs} {call : PostCall nprocs}
    {outcome : PostOutcome} {halt : Halt} (failed : call.perform ctx outcome = .error halt) :
    halt = .assertion := by
  have refuses : ∀ dest, ctx.postSend dest outcome = .error halt → halt = .assertion := by
    intro dest posted
    unfold Context.postSend at posted
    split at posted
    · exact (Except.error.inj posted).symm
    · cases outcome with
      | accepted =>
          simp only at posted
          split at posted <;> cases posted
      | failed err => cases posted
      | badWr => cases posted
  cases call with
  | zsend buffer offset bytes dest =>
      simp only [PostCall.perform, Context.zsend] at failed
      split at failed
      · exact refuses _ failed
      · exact (Except.error.inj failed).symm
  | write buffer offset bytes dest rkey destPtr =>
      simp only [PostCall.perform, Context.write] at failed
      split at failed
      · exact refuses _ failed
      · exact (Except.error.inj failed).symm
  | read buffer offset bytes src rkey srcPtr =>
      simp only [PostCall.perform, Context.read] at failed
      split at failed
      · exact refuses _ failed
      · exact (Except.error.inj failed).symm

namespace Node

variable {node : Node nprocs} {history : List (Action nprocs)}

/-- What the queues of the receive path guarantee in a state. -/
structure ReceivePathSound (node : Node nprocs) : Prop where
  /-- The enqueue of `process_wc` succeeds. -/
  queues : ∀ loop wc rest source, node.pc = .handling loop (wc :: rest) → node.isFrom source wc →
    ∃ queue, (node.ctx.rxWin.pendingRecvQueue source).enqueue wc.wrId.id = .ok queue
  /-- The enqueue of `YMPI_Zrecv` succeeds. -/
  fetches : ∀ source queue bufId,
    (node.ctx.rxWin.pendingRecvQueue source).dequeue (-1) = .ok (queue, bufId) → bufId ≠ -1 →
      ∃ fetched, node.ctx.rxWin.vbufFetched.enqueue bufId = .ok fetched
  /-- The exit of a full list, the only one with status 1, is not taken. -/
  notFull : ¬ node.Fails (.exit 1)
  pendingStored : ∀ source, (-1 : Int) ∉ node.pending source
  fetchedStored : (-1 : Int) ∉ node.fetchedIds
  pendingEmpty : ∀ source queue,
    (node.ctx.rxWin.pendingRecvQueue source).dequeue (-1) = .ok (queue, -1) →
      node.pending source = []
  fetchedEmpty : ∀ queue, node.ctx.rxWin.vbufFetched.dequeue (-1) = .ok (queue, -1) →
    node.fetchedIds = []
  /-- The index at which `process_wc` stores a length. -/
  recorded : ∀ wc ∈ node.unhandled, wc.isRecv = true → wc.wrId.id < prepostDepth
  /-- The index at which `YMPI_Zrecv` reads a length. -/
  looked : ∀ source, ∀ id ∈ node.pending source, 0 ≤ id ∧ id < prepostDepth
  posted : node.srq.length ≤ maxSrqWr

/-- While no post to the SRQ fails, all receive buffers are in one of the places. -/
theorem reaches_balance (reached : (system nprocs).Reaches history node)
    (posted : ∀ wr, Action.repost wr false ∉ history) :
    node.srq.length + (recvIds node.unhandled).length + node.fetchedIds.length +
      ∑ source, (node.pending source).length = prepostDepth := by
  have whole := congrArg Multiset.card (reaches_sum_idsAt reached)
  rw [dropped_eq_nil posted, Multiset.card_add, Multiset.card_sum, Place.sum_eq] at whole
  simp only [Multiset.coe_card, idsAt, allIds, requestIds, List.length_map,
    List.length_range, List.length_nil] at whole
  omega

/-- The queue of one source holds part of the buffers. -/
theorem pending_le_sum (node : Node nprocs) (source : Fin nprocs) :
    (node.pending source).length ≤ ∑ other, (node.pending other).length :=
  Finset.single_le_sum (f := fun other => (node.pending other).length)
    (fun _ _ => Nat.zero_le _) (Finset.mem_univ source)

/-- A pending queue has room for every completion: its pool is larger than the number
of buffers. -/
theorem pending_room (reached : (system nprocs).Reaches history node)
    (posted : ∀ wr, Action.repost wr false ∉ history) (source : Fin nprocs) :
    (node.pending source).length < recvPerProcess := by
  have whole := reaches_balance reached posted
  have part := node.pending_le_sum source
  have larger : prepostDepth < recvPerProcess := by decide
  omega

/-- A pending buffer is not among those handed out, which leaves room for it. -/
theorem fetched_room (reached : (system nprocs).Reaches history node)
    (posted : ∀ wr, Action.repost wr false ∉ history) {source : Fin nprocs}
    (some : node.pending source ≠ []) : node.fetchedIds.length < prepostDepth := by
  have whole := reaches_balance reached posted
  have part := node.pending_le_sum source
  have positive := List.length_pos_iff.mpr some
  omega

/-- No call takes the exit of a full list. -/
theorem not_full (reached : (system nprocs).Reaches history node)
    (posted : ∀ wr, Action.repost wr false ∉ history) : ¬ node.Fails (.exit 1) := by
  intro fails
  cases fails with
  | post _ failed =>
      cases PostCall.perform_eq_error failed
  | @recv source _ atHead failed =>
      unfold Context.recvHead at failed
      rcases error_of_bind failed with undequeued | ⟨⟨queue, bufId⟩, dequeued, failed⟩
      · exact Context.dequeue_ne_error _ _ undequeued
      simp only at failed
      split at failed
      next given =>
        have stored : node.pending source = bufId :: queue.contents := by
          rcases PooledQueue.dequeue_eq_ok dequeued with ⟨-, -, zero⟩ | stored
          · exact absurd zero given
          · exact stored
        have some : node.pending source ≠ [] := by
          rw [stored]
          exact List.cons_ne_nil _ _
        have room := fetched_room reached posted some
        obtain ⟨fetched, enqueued, -⟩ := node.ctx.rxWin.vbufFetched.enqueue_ok bufId room
        rw [enqueued] at failed
        cases failed
      next => cases failed
  | @handle loop wc rest _ handling failed =>
      obtain ⟨-, source, -, full⟩ := Context.processWc_full failed
      obtain ⟨queue, enqueued, -⟩ :=
        (node.ctx.rxWin.pendingRecvQueue source).enqueue_ok (wc.wrId.id : Int)
          (pending_room reached posted source)
      rw [enqueued] at full
      cases full
  | giveBack atReturn failed =>
      unfold Context.returnHead at failed
      rcases error_of_bind failed with undequeued | ⟨⟨queue, bufId⟩, dequeued, failed⟩
      · exact Context.dequeue_ne_error _ _ undequeued
      · simp only at failed
        split at failed <;> cases failed

/-- No queue of the receive path is full for an enqueue in a reached state, none stores
-1, every index into `buf_bytes` is in bounds, and the SRQ has room. -/
theorem reaches_receivePathSound (reached : (system nprocs).Reaches history node)
    (posted : ∀ wr, Action.repost wr false ∉ history) : node.ReceivePathSound := by
  have proper := reaches_proper reached
  have conserved := (receive_buffers_conserved reached posted).2
  refine ⟨?_, ?_, not_full reached posted, proper.minusOne_pending, proper.minusOne_fetched,
    ?_, ?_, ?_, ?_, ?_⟩
  · intro loop wc rest source handling isFrom
    obtain ⟨queue, enqueued, -⟩ :=
      (node.ctx.rxWin.pendingRecvQueue source).enqueue_ok (wc.wrId.id : Int)
        (pending_room reached posted source)
    exact ⟨queue, enqueued⟩
  · intro source queue bufId dequeued given
    have some : node.pending source ≠ [] := by
      rcases PooledQueue.dequeue_eq_ok dequeued with ⟨-, -, zero⟩ | stored
      · exact absurd zero given
      · rw [pending, stored]
        exact List.cons_ne_nil _ _
    obtain ⟨fetched, enqueued, -⟩ :=
      node.ctx.rxWin.vbufFetched.enqueue_ok bufId (fetched_room reached posted some)
    exact ⟨fetched, enqueued⟩
  · intro source queue dequeued
    exact Context.dequeue_minusOne (proper.minusOne_pending source) dequeued
  · intro queue dequeued
    exact Context.dequeue_minusOne proper.minusOne_fetched dequeued
  · intro wc member isRecv
    have inCompletion : (wc.wrId.id : Int) ∈ node.idsAt .completion :=
      List.mem_map_of_mem (List.mem_filter.mpr ⟨member, isRecv⟩)
    have inside := (conserved .completion _ inCompletion).2
    omega
  · intro source id member
    exact conserved (.pending source) id member
  · have total := reaches_balance reached posted
    have smaller : prepostDepth ≤ maxSrqWr := by decide
    omega

/-- **The receive path.** The creation of a context fills `vbuf_fetched` without
overrunning it, and in every state reached by successful posts to the SRQ the queues of
the receive path neither fill up nor misreport empty. -/
theorem receive_path_sound :
    (∀ (qps : QpTable nprocs) (maxInlineData lkey : ℕ) garbage garbageFetched,
      ∃ ctx, Context.create qps maxInlineData lkey garbage garbageFetched = .ok ctx) ∧
    ∀ (history : List (Action nprocs)) (node : Node nprocs),
      (system nprocs).Reaches history node → (∀ wr, Action.repost wr false ∉ history) →
        node.ReceivePathSound := by
  refine ⟨Context.create_ok, ?_⟩
  intro history node reached posted
  exact reaches_receivePathSound reached posted

/-- A process of three with buffers in every place. -/
theorem receive_path_sound_scattered : ∃ (history : List (Action 3)) (node : Node 3),
    (system 3).Reaches history node ∧ node.fetchedIds ≠ [] ∧ node.pending 1 ≠ [] ∧
      node.unhandled ≠ [] ∧ node.ReceivePathSound := by
  obtain ⟨history, node, reached, posted, scattered⟩ := exists_scattered
  obtain ⟨wc, listed, -⟩ := scattered.unpolled
  refine ⟨history, node, reached, ?_, ?_, ?_, receive_path_sound.2 _ node reached posted⟩
  · rw [scattered.fetched]
    exact List.cons_ne_nil _ _
  · rw [scattered.pending]
    exact List.cons_ne_nil _ _
  · rw [unhandled, listed]
    exact List.append_ne_nil_of_right_ne_nil _ (List.cons_ne_nil _ _)

end Node

end Ympi.Messaging
