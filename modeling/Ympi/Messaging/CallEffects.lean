import Ympi.Messaging.Calls

/-! # What the calls do to a context

One lemma for each function of the context: what it did when it returned. The
proofs about nodes use these and never unfold the functions.
-/

namespace Ympi.Messaging

open LinkedList Foundation

variable {nprocs : ℕ}

namespace Pc

@[simp] theorem batch_idle (ret : Int) : (idle ret : Pc nprocs).batch = [] := rfl

@[simp] theorem batch_head (loop : Loop nprocs) : (head loop).batch = [] := rfl

@[simp] theorem batch_polling (loop : Loop nprocs) : (polling loop).batch = [] := rfl

@[simp] theorem batch_handling (loop : Loop nprocs) (batch : List Wc) :
    (handling loop batch).batch = batch := rfl

@[simp] theorem batch_returning : (returning : Pc nprocs).batch = [] := rfl

@[simp] theorem batch_halted (halt : Halt) (batch : List Wc) :
    (halted halt batch : Pc nprocs).batch = batch := rfl

@[simp] theorem batch_afterPoll (loop : Loop nprocs) (batch : List Wc) :
    (afterPoll loop batch).batch = batch := by
  cases batch <;> rfl

@[simp] theorem batch_afterHandled (loop : Loop nprocs) (batch : List Wc) :
    (afterHandled loop batch).batch = batch := by
  cases batch with
  | nil => cases loop <;> rfl
  | cons => rfl

@[simp] theorem batch_afterPollError (loop : Loop nprocs) :
    (afterPollError loop : Pc nprocs).batch = [] := by
  cases loop <;> rfl

end Pc

namespace Context

variable {ctx ctx' : Context nprocs}

theorem index_eq_ok {rank : Int} {peer : Fin nprocs} (found : index nprocs rank = .ok peer) :
    (peer.val : Int) = rank := by
  unfold index at found
  split at found
  next inside =>
    cases found
    exact Int.toNat_of_nonneg inside.1
  next => cases found

theorem index_val (peer : Fin nprocs) : index nprocs (peer.val : Int) = .ok peer := by
  have inside : 0 ≤ (peer.val : Int) ∧ (peer.val : Int) < nprocs := by
    have := peer.isLt
    omega
  rw [index, dif_pos inside]
  rfl

theorem incPending_self (ctx : Context nprocs) (dest : Fin nprocs) :
    (ctx.incPending dest).qpPendingSendWr dest = ctx.qpPendingSendWr dest + 1 := by
  simp [incPending]

theorem incPending_of_ne (ctx : Context nprocs) {dest peer : Fin nprocs} (other : peer ≠ dest) :
    (ctx.incPending dest).qpPendingSendWr peer = ctx.qpPendingSendWr peer := by
  simp [incPending, other]

/-- One request fewer is pending for `peer`. -/
def settled (ctx : Context nprocs) (peer : Fin nprocs) : Context nprocs :=
  { ctx with
    qpPendingSendWr := Function.update ctx.qpPendingSendWr peer (ctx.qpPendingSendWr peer - 1)
    pendingSendWr := ctx.pendingSendWr - 1 }

theorem settled_incPending (ctx : Context nprocs) (peer : Fin nprocs) :
    (ctx.incPending peer).settled peer = ctx := by
  simp [settled, incPending]

theorem decPending_eq_ok {qpId : ℕ} (performed : ctx.decPending qpId = .ok ctx') :
    ∃ peer : Fin nprocs, peer.val = qpId ∧ ctx' = ctx.settled peer := by
  unfold decPending at performed
  obtain ⟨peer, found, done⟩ := exists_of_bind_ok performed
  cases done
  have same := index_eq_ok found
  exact ⟨peer, by omega, rfl⟩

/-- The buffer of a receive completion waits in the queue of `source`. -/
def queued (ctx : Context nprocs) (wc : Wc) (source : Fin nprocs)
    (queue : PooledQueue Int recvPerProcess) : Context nprocs :=
  { ctx with rxWin := { ctx.rxWin with
    bufBytes := Function.update ctx.rxWin.bufBytes wc.wrId.id wc.byteLen
    pendingRecvQueue := Function.update ctx.rxWin.pendingRecvQueue source queue } }

theorem queued_pending_self (ctx : Context nprocs) (wc : Wc) (source : Fin nprocs)
    (queue : PooledQueue Int recvPerProcess) :
    (ctx.queued wc source queue).rxWin.pendingRecvQueue source = queue := by
  simp [queued]

theorem queued_pending_of_ne (ctx : Context nprocs) (wc : Wc) {source other : Fin nprocs}
    (queue : PooledQueue Int recvPerProcess) (apart : other ≠ source) :
    (ctx.queued wc source queue).rxWin.pendingRecvQueue other =
      ctx.rxWin.pendingRecvQueue other := by
  simp [queued, apart]

/-- `process_wc` returned: the completion was successful, and it settled a request
or queued a buffer for the peer of its queue pair. -/
theorem processWc_eq_ok {wc : Wc} (performed : ctx.processWc wc = .ok ctx') :
    wc.status = .success ∧
      ((wc.isRecv = false ∧ ∃ peer : Fin nprocs, peer.val = wc.wrId.id ∧ ctx' = ctx.settled peer) ∨
        (wc.isRecv = true ∧ ∃ source queue,
          qpnRank ctx.qps.arch ctx.qps.qpRank wc.qpNum = .ok (source.val : Int) ∧
          queue.contents = (ctx.rxWin.pendingRecvQueue source).contents ++ [(wc.wrId.id : Int)] ∧
          ctx' = ctx.queued wc source queue)) := by
  unfold processWc at performed
  split at performed
  next => cases performed
  next successful =>
    refine ⟨not_not.mp successful, ?_⟩
    split at performed
    next tag => exact Or.inl ⟨by simp [Wc.isRecv, tag], decPending_eq_ok performed⟩
    next tag => exact Or.inl ⟨by simp [Wc.isRecv, tag], decPending_eq_ok performed⟩
    next tag => exact Or.inl ⟨by simp [Wc.isRecv, tag], decPending_eq_ok performed⟩
    next tag =>
      refine Or.inr ⟨by simp [Wc.isRecv, tag], ?_⟩
      obtain ⟨msgSrc, ranked, performed⟩ := exists_of_bind_ok performed
      obtain ⟨source, found, performed⟩ := exists_of_bind_ok performed
      obtain ⟨queue, enqueued, done⟩ := exists_of_bind_ok performed
      cases done
      refine ⟨source, queue, ?_, PooledQueue.enqueue_eq_ok enqueued, rfl⟩
      rw [ranked, index_eq_ok found]

/-- `process_wc` settles a request that completed successfully. -/
theorem processWc_send {wc : Wc} {peer : Fin nprocs} (successful : wc.status = .success)
    (isSend : wc.isSendTo peer = true) : ctx.processWc wc = .ok (ctx.settled peer) := by
  have both : wc.wrId.tag ≠ .recv ∧ wc.wrId.id = peer := by simpa [Wc.isSendTo] using isSend
  have performed : ctx.decPending wc.wrId.id = .ok (ctx.settled peer) := by
    rw [decPending, both.2, index_val]
    rfl
  rw [processWc, if_neg (not_not_intro successful)]
  cases tag : wc.wrId.tag with
  | recv => exact absurd tag both.1
  | send => exact performed
  | write => exact performed
  | read => exact performed

/-- A successful receive completion finds its source, whose queue has room. -/
theorem processWc_recv {wc : Wc} {source : Fin nprocs} (successful : wc.status = .success)
    (isRecv : wc.isRecv = true)
    (ranked : qpnRank ctx.qps.arch ctx.qps.qpRank wc.qpNum = .ok (source.val : Int))
    (room : (ctx.rxWin.pendingRecvQueue source).contents.length < recvPerProcess) :
    ∃ queue, queue.contents =
        (ctx.rxWin.pendingRecvQueue source).contents ++ [(wc.wrId.id : Int)] ∧
      ctx.processWc wc = .ok (ctx.queued wc source queue) := by
  obtain ⟨queue, enqueued, stored⟩ :=
    (ctx.rxWin.pendingRecvQueue source).enqueue_ok (wc.wrId.id : Int) room
  have tag : wc.wrId.tag = .recv := by simpa [Wc.isRecv] using isRecv
  refine ⟨queue, stored, ?_⟩
  rw [processWc, if_neg (not_not.mpr successful)]
  simp only [tag, ranked, bind, Except.bind, index_val, enqueued]
  rfl

/-- The pending queue of `source` is now `queue`. -/
def withPending (ctx : Context nprocs) (source : Fin nprocs)
    (queue : PooledQueue Int recvPerProcess) : Context nprocs :=
  { ctx with rxWin := { ctx.rxWin with
    pendingRecvQueue := Function.update ctx.rxWin.pendingRecvQueue source queue } }

/-- The buffer `bufId` has moved from the pending queue of `source`, now `queue`,
to the buffers handed out, now `fetched`. -/
def handedOut (ctx : Context nprocs) (source : Fin nprocs)
    (queue : PooledQueue Int recvPerProcess) (fetched : PooledQueue Int prepostDepth) :
    Context nprocs :=
  { ctx with rxWin := { ctx.rxWin with
    pendingRecvQueue := Function.update ctx.rxWin.pendingRecvQueue source queue
    vbufFetched := fetched } }

/-- A turn of `YMPI_Zrecv`'s loop dequeues from the pending queue of the source, and hands
out what it finds. -/
theorem recvHead_eq_ok {source : Fin nprocs} {found : Option Received}
    (performed : ctx.recvHead source = .ok (ctx', found)) :
    ∃ queue bufId, (ctx.rxWin.pendingRecvQueue source).dequeue (-1) = .ok (queue, bufId) ∧
      ((bufId = -1 ∧ found = none ∧ ctx' = ctx.withPending source queue) ∨
        bufId ≠ -1 ∧ ∃ fetched, ctx.rxWin.vbufFetched.enqueue bufId = .ok fetched ∧
          found = some ⟨bufId, bufId.toNat * vbufBytes, ctx.rxWin.bufBytes bufId.toNat⟩ ∧
          ctx' = ctx.handedOut source queue fetched) := by
  unfold recvHead at performed
  obtain ⟨⟨queue, bufId⟩, dequeued, performed⟩ := exists_of_bind_ok performed
  refine ⟨queue, bufId, dequeued, ?_⟩
  simp only at performed
  split at performed
  next given =>
    obtain ⟨fetched, enqueued, done⟩ := exists_of_bind_ok performed
    cases done
    exact Or.inr ⟨given, fetched, enqueued, rfl, rfl⟩
  next isZero =>
    cases performed
    exact Or.inl ⟨not_not.mp isZero, rfl, rfl⟩

/-- `YMPI_Zrecv` found nothing: the queue was empty or held the value -1. -/
theorem recvHead_none {source : Fin nprocs} (performed : ctx.recvHead source = .ok (ctx', none)) :
    ∃ queue, ctx' = ctx.withPending source queue ∧
      (((ctx.rxWin.pendingRecvQueue source).contents = [] ∧
        queue = ctx.rxWin.pendingRecvQueue source) ∨
        (ctx.rxWin.pendingRecvQueue source).contents = -1 :: queue.contents) := by
  obtain ⟨queue, bufId, dequeued, ⟨zero, -, rfl⟩ | ⟨-, fetched, -, found, -⟩⟩ :=
    recvHead_eq_ok performed
  · subst zero
    exact ⟨queue, rfl, PooledQueue.dequeue_eq_ok_zero dequeued⟩
  · cases found

/-- Without a stored -1, `YMPI_Zrecv` finds nothing only in an empty queue, and
changes nothing. -/
theorem recvHead_empty {source : Fin nprocs} (performed : ctx.recvHead source = .ok (ctx', none))
    (proper : (-1 : Int) ∉ (ctx.rxWin.pendingRecvQueue source).contents) :
    (ctx.rxWin.pendingRecvQueue source).contents = [] ∧ ctx' = ctx := by
  obtain ⟨queue, rfl, ⟨empty, rfl⟩ | stored⟩ := recvHead_none performed
  · refine ⟨empty, ?_⟩
    rw [withPending, Function.update_eq_self]
  · exact absurd (stored ▸ List.mem_cons_self) proper

/-- `YMPI_Zrecv` finds nothing in an empty queue. -/
theorem recvHead_nil {source : Fin nprocs}
    (empty : (ctx.rxWin.pendingRecvQueue source).contents = []) :
    ctx.recvHead source = .ok (ctx, none) := by
  unfold recvHead
  rw [PooledQueue.dequeue_nil (-1) empty]
  simp only [bind, Except.bind, Function.update_eq_self, ne_eq, not_true, if_false]
  rfl

/-- `YMPI_Zrecv` hands out a pending buffer while `vbuf_fetched` has room. -/
theorem recvHead_cons {source : Fin nprocs} {bufId : Int} {rest : List Int} (given : bufId ≠ -1)
    (stored : (ctx.rxWin.pendingRecvQueue source).contents = bufId :: rest)
    (room : ctx.rxWin.vbufFetched.contents.length < prepostDepth) :
    ∃ ctx' result, ctx.recvHead source = .ok (ctx', some result) ∧ result.bufId = bufId := by
  obtain ⟨queue, dequeued, -⟩ := PooledQueue.dequeue_cons (-1) stored
  obtain ⟨fetched, enqueued, -⟩ := ctx.rxWin.vbufFetched.enqueue_ok bufId room
  unfold recvHead
  rw [dequeued]
  simp only [bind, Except.bind]
  rw [if_pos given, enqueued]
  exact ⟨_, _, rfl, rfl⟩

/-- `YMPI_Zrecv` handed out the oldest pending buffer of the source. -/
theorem recvHead_some {source : Fin nprocs} {result : Received}
    (performed : ctx.recvHead source = .ok (ctx', some result)) :
    ∃ queue fetched,
      (ctx.rxWin.pendingRecvQueue source).contents = result.bufId :: queue.contents ∧
      fetched.contents = ctx.rxWin.vbufFetched.contents ++ [result.bufId] ∧
      ctx' = ctx.handedOut source queue fetched ∧
      result.ptr = result.bufId.toNat * vbufBytes ∧
      result.len = ctx.rxWin.bufBytes result.bufId.toNat := by
  obtain ⟨queue, bufId, dequeued, ⟨-, found, -⟩ | ⟨given, fetched, enqueued, found, rfl⟩⟩ :=
    recvHead_eq_ok performed
  · cases found
  · cases found
    have stored : (ctx.rxWin.pendingRecvQueue source).contents = bufId :: queue.contents := by
      rcases PooledQueue.dequeue_eq_ok dequeued with ⟨_, _, zero⟩ | stored
      · exact absurd zero given
      · exact stored
    exact ⟨queue, fetched, stored, PooledQueue.enqueue_eq_ok enqueued, rfl, rfl, rfl⟩

/-- The receive request for the whole of a buffer. -/
def recvRequest (ctx : Context nprocs) (bufId : Int) : RecvWr where
  wrId := { tag := .recv, id := bufId.toNat }
  sge := { addr := bufId.toNat * vbufBytes, length := vbufBytes, lkey := ctx.rxWin.lkey }

/-- The buffers handed out are now those of `queue`. -/
def withFetched (ctx : Context nprocs) (queue : PooledQueue Int prepostDepth) : Context nprocs :=
  { ctx with rxWin := { ctx.rxWin with vbufFetched := queue } }

/-- A turn of `YMPID_Return`'s loop dequeues from `vbuf_fetched`, and posts what it finds. -/
theorem returnHead_eq_ok {found : Option RecvWr}
    (performed : ctx.returnHead = .ok (ctx', found)) :
    ∃ queue bufId, ctx.rxWin.vbufFetched.dequeue (-1) = .ok (queue, bufId) ∧
      ctx' = ctx.withFetched queue ∧
      ((bufId = -1 ∧ found = none) ∨ bufId ≠ -1 ∧ found = some (ctx.recvRequest bufId)) := by
  unfold returnHead at performed
  obtain ⟨⟨queue, bufId⟩, dequeued, performed⟩ := exists_of_bind_ok performed
  refine ⟨queue, bufId, dequeued, ?_⟩
  simp only at performed
  split at performed
  next given =>
    cases performed
    exact ⟨rfl, Or.inr ⟨given, rfl⟩⟩
  next isZero =>
    cases performed
    exact ⟨rfl, Or.inl ⟨not_not.mp isZero, rfl⟩⟩

/-- `YMPID_Return` found nothing: the queue was empty or held the value -1. -/
theorem returnHead_none (performed : ctx.returnHead = .ok (ctx', none)) :
    ∃ queue, ctx' = ctx.withFetched queue ∧
      ((ctx.rxWin.vbufFetched.contents = [] ∧ queue = ctx.rxWin.vbufFetched) ∨
        ctx.rxWin.vbufFetched.contents = -1 :: queue.contents) := by
  obtain ⟨queue, bufId, dequeued, rfl, ⟨zero, -⟩ | ⟨-, found⟩⟩ := returnHead_eq_ok performed
  · subst zero
    exact ⟨queue, rfl, PooledQueue.dequeue_eq_ok_zero dequeued⟩
  · cases found

/-- Without a stored -1, `YMPID_Return` is done only when nothing is left to post,
and changes nothing then. -/
theorem returnHead_empty (performed : ctx.returnHead = .ok (ctx', none))
    (proper : (-1 : Int) ∉ ctx.rxWin.vbufFetched.contents) :
    ctx.rxWin.vbufFetched.contents = [] ∧ ctx' = ctx := by
  obtain ⟨queue, rfl, ⟨empty, rfl⟩ | stored⟩ := returnHead_none performed
  · exact ⟨empty, rfl⟩
  · exact absurd (stored ▸ List.mem_cons_self) proper

/-- `YMPID_Return` is done when nothing has been handed out. -/
theorem returnHead_nil (empty : ctx.rxWin.vbufFetched.contents = []) :
    ctx.returnHead = .ok (ctx, none) := by
  unfold returnHead
  rw [PooledQueue.dequeue_nil (-1) empty]
  rfl

/-- `YMPID_Return` takes the oldest buffer handed out. -/
theorem returnHead_cons {bufId : Int} {rest : List Int} (given : bufId ≠ -1)
    (stored : ctx.rxWin.vbufFetched.contents = bufId :: rest) :
    ∃ queue, queue.contents = rest ∧
      ctx.returnHead = .ok (ctx.withFetched queue, some (ctx.recvRequest bufId)) := by
  obtain ⟨queue, dequeued, left⟩ := PooledQueue.dequeue_cons (-1) stored
  refine ⟨queue, left, ?_⟩
  unfold returnHead
  rw [dequeued]
  simp only [bind, Except.bind]
  rw [if_pos given]
  rfl

/-- `YMPID_Return` took the oldest buffer handed out and is about to post it. -/
theorem returnHead_some {wr : RecvWr} (performed : ctx.returnHead = .ok (ctx', some wr)) :
    ∃ bufId queue, ctx.rxWin.vbufFetched.contents = bufId :: queue.contents ∧
      wr = ctx.recvRequest bufId ∧ ctx' = ctx.withFetched queue := by
  obtain ⟨queue, bufId, dequeued, rfl, ⟨-, found⟩ | ⟨given, found⟩⟩ := returnHead_eq_ok performed
  · cases found
  · cases found
    rcases PooledQueue.dequeue_eq_ok dequeued with ⟨_, _, zero⟩ | stored
    · exact absurd zero given
    · exact ⟨bufId, queue, stored, rfl, rfl⟩

end Context

namespace PostCall

variable {ctx ctx' : Context nprocs} {pc : Pc nprocs}

/-- The bounds assertion of the call holds. -/
def InBounds : PostCall nprocs → Prop
  | .zsend buffer offset bytes _ => Context.inBounds buffer offset bytes
  | .write localSrc offset bytes _ _ _ => Context.inBounds localSrc offset bytes
  | .read localDst offset bytes _ _ _ => Context.inBounds localDst offset bytes

/-- A post within bounds over an existing queue pair that is accepted is counted, and
the call throttles at the limit of the queue pair. -/
theorem perform_ok {call : PostCall nprocs} (bounded : call.InBounds)
    (present : ctx.qps.qpList call.dest ≠ none) :
    call.perform ctx .accepted = .ok (ctx.incPending call.dest,
      if ctx.qpPendingSendWr call.dest + 1 = maxSendWrPerQp
        then .head (.throttle call.dest) else .idle 0) := by
  have posted : ctx.postSend call.dest .accepted = .ok (ctx.incPending call.dest,
      if ctx.qpPendingSendWr call.dest + 1 = maxSendWrPerQp
        then .head (.throttle call.dest) else .idle 0) := by
    rw [Context.postSend, if_neg present]
    simp only [Context.incPending_self]
    split <;> rfl
  rw [← posted]
  cases call with
  | zsend => exact if_pos bounded
  | write => exact if_pos bounded
  | read => exact if_pos bounded

/-- Every posting call ends in the common part once its bounds check has passed. -/
theorem perform_eq_postSend {outcome : PostOutcome} {call : PostCall nprocs}
    (performed : call.perform ctx outcome = .ok (ctx', pc)) :
    ctx.postSend call.dest outcome = .ok (ctx', pc) := by
  cases call with
  | zsend buffer offset bytes dest =>
      simp only [perform, Context.zsend] at performed
      split at performed
      · exact performed
      · cases performed
  | write buffer offset bytes dest rkey destPtr =>
      simp only [perform, Context.write] at performed
      split at performed
      · exact performed
      · cases performed
  | read buffer offset bytes src rkey srcPtr =>
      simp only [perform, Context.read] at performed
      split at performed
      · exact performed
      · cases performed

/-- An accepted post is counted, and the call throttles at the limit of the queue
pair. -/
theorem perform_accepted {call : PostCall nprocs}
    (performed : call.perform ctx .accepted = .ok (ctx', pc)) :
    ctx.qps.qpList call.dest ≠ none ∧ ctx' = ctx.incPending call.dest ∧
      pc = if ctx.qpPendingSendWr call.dest + 1 = maxSendWrPerQp
        then .head (.throttle call.dest) else .idle 0 := by
  have posted := perform_eq_postSend performed
  unfold Context.postSend at posted
  split at posted
  next => cases posted
  next present =>
    refine ⟨present, ?_⟩
    simp only [Context.incPending_self] at posted
    split at posted
    next limit =>
      cases posted
      exact ⟨rfl, (if_pos limit).symm⟩
    next below =>
      cases posted
      exact ⟨rfl, (if_neg below).symm⟩

/-- A refused post changes nothing, and the call returns -1. -/
theorem perform_refused {outcome : PostOutcome} {call : PostCall nprocs}
    (refused : outcome ≠ .accepted) (performed : call.perform ctx outcome = .ok (ctx', pc)) :
    ctx' = ctx ∧ pc = .idle (-1) := by
  have posted := perform_eq_postSend performed
  unfold Context.postSend at posted
  split at posted
  next => cases posted
  next =>
    cases outcome with
    | accepted => exact absurd rfl refused
    | failed err =>
        cases posted
        exact ⟨rfl, rfl⟩
    | badWr =>
        cases posted
        exact ⟨rfl, rfl⟩

end PostCall

end Ympi.Messaging
