import Ympi.Messaging.Cluster
import Ympi.Messaging.Ledgers

/-! # The shape of what the queues hold

Every request that the library posts names its buffer or its peer in its `wr_id`,
every buffer number is one of the array of receive buffers, and the process starts
with all of them in `vbuf_fetched`. These facts hold in every reached node, whatever
its environment does.
-/

namespace Ympi.Messaging

open LinkedList Foundation

variable {nprocs : ℕ}

/-- A receive request for a whole receive buffer, which it names. -/
structure RecvWr.ForBuffer (wr : RecvWr) : Prop where
  tag : wr.wrId.tag = .recv
  addr : wr.sge.addr = wr.wrId.id * vbufBytes
  length : wr.sge.length = vbufBytes

/-- A signalled request that names the peer it was posted for. -/
structure Posted.AddressedTo (posted : Posted) (peer : Fin nprocs) : Prop where
  tag : posted.wr.wrId.tag ≠ .recv
  id : posted.wr.wrId.id = peer
  signaled : posted.wr.sendFlags.signaled = true

theorem PostCall.wr_addressedTo (ctx : Context nprocs) (call : PostCall nprocs)
    (data : List UInt8) : (⟨call.wr ctx, data⟩ : Posted).AddressedTo call.dest := by
  cases call with
  | zsend => exact ⟨by simp [wr, Context.zsendWr], rfl, rfl⟩
  | write => exact ⟨by simp [wr, Context.writeWr], rfl, rfl⟩
  | read => exact ⟨by simp [wr, Context.readWr], rfl, rfl⟩

namespace Context

/-- The loop of the creation appends the numbers it enqueues. -/
theorem fillFetched_eq_ok {queue filled : PooledQueue Int prepostDepth} {first count : ℕ}
    (performed : fillFetched queue first count = .ok filled) :
    filled.contents = queue.contents ++ (List.range' first count).map Int.ofNat := by
  induction count generalizing queue first with
  | zero =>
      cases performed
      simp
  | succ count ih =>
      rw [fillFetched] at performed
      obtain ⟨next, enqueued, performed⟩ := exists_of_bind_ok performed
      rw [ih performed, PooledQueue.enqueue_eq_ok enqueued]
      simp [List.range'_succ]

/-- The loop never overruns a queue that has room for all numbers. -/
theorem fillFetched_ok {queue : PooledQueue Int prepostDepth} {first count : ℕ}
    (room : queue.contents.length + count ≤ prepostDepth) :
    ∃ filled, fillFetched queue first count = .ok filled := by
  induction count generalizing queue first with
  | zero => exact ⟨queue, rfl⟩
  | succ count ih =>
      obtain ⟨next, enqueued, stored⟩ := queue.enqueue_ok (first : Int) (by omega)
      have left : next.contents.length + count ≤ prepostDepth := by
        rw [stored, List.length_append, List.length_singleton]
        omega
      obtain ⟨filled, performed⟩ := ih left
      exact ⟨filled, by rw [fillFetched, enqueued]; exact performed⟩

/-- A context as the creation leaves it: nothing is pending, and all buffers are in
`vbuf_fetched`. -/
structure Fresh (ctx : Context nprocs) : Prop where
  pending : ∀ source, (ctx.rxWin.pendingRecvQueue source).contents = []
  fetched : ctx.rxWin.vbufFetched.contents = (List.range prepostDepth).map Int.ofNat
  qpPending : ∀ peer, ctx.qpPendingSendWr peer = 0
  total : ctx.pendingSendWr = 0

theorem create_eq_ok {qps : QpTable nprocs} {maxInlineData lkey : ℕ}
    {garbage : Fin nprocs → Cell recvPerProcess → Element Int recvPerProcess}
    {garbageFetched : Cell prepostDepth → Element Int prepostDepth} {ctx : Context nprocs}
    (performed : create qps maxInlineData lkey garbage garbageFetched = .ok ctx) :
    ctx.Fresh ∧ ctx.qps = qps := by
  unfold create at performed
  obtain ⟨vbufFetched, filled, done⟩ := exists_of_bind_ok performed
  cases done
  refine ⟨⟨?_, ?_, fun _ => rfl, rfl⟩, rfl⟩
  · intro source
    exact PooledQueue.contents_init (-1) (garbage source) (by decide)
  · rw [fillFetched_eq_ok filled, PooledQueue.contents_init, List.nil_append,
      List.range_eq_range']

/-- The creation succeeds. -/
theorem create_ok (qps : QpTable nprocs) (maxInlineData lkey : ℕ)
    (garbage : Fin nprocs → Cell recvPerProcess → Element Int recvPerProcess)
    (garbageFetched : Cell prepostDepth → Element Int prepostDepth) :
    ∃ ctx : Context nprocs, create qps maxInlineData lkey garbage garbageFetched = .ok ctx := by
  have room : (PooledQueue.init (-1) garbageFetched (by decide) :
      PooledQueue Int prepostDepth).contents.length + prepostDepth ≤ prepostDepth := by simp
  obtain ⟨filled, performed⟩ := fillFetched_ok room
  exact ⟨_, by rw [create, performed]; rfl⟩

end Context

namespace Node

theorem Initial.fresh {node : Node nprocs} (initial : node.Initial) : node.ctx.Fresh := by
  obtain ⟨maxInlineData, lkey, garbage, garbageFetched, performed⟩ := initial.created
  exact (Context.create_eq_ok performed).1

theorem Initial.unhandled_eq {node : Node nprocs} (initial : node.Initial) :
    node.unhandled = [] := by
  rw [unhandled, initial.pc_eq, initial.cq_eq]
  rfl

/-- The requests in the queues of the HCA name their buffer or their peer. -/
structure Formed (node : Node nprocs) : Prop where
  srq : ∀ wr ∈ node.srq, wr.ForBuffer
  sendQueue : ∀ peer, ∀ posted ∈ node.sendQueue peer, posted.AddressedTo peer
  executed : ∀ peer, ∀ executed ∈ node.executed peer, executed.posted.AddressedTo peer

variable {node node' : Node nprocs} {action : Action nprocs}

/-- A request is accepted from a posting call. -/
theorem accepted_origin {peer : Fin nprocs} {posted : Posted}
    (member : posted ∈ node.accepted peer action) :
    ∃ call data, action = .post call .accepted data ∧ call.dest = peer ∧
      posted = ⟨call.wr node.ctx, (call.wr node.ctx).gather node.mem⟩ := by
  cases action with
  | post call outcome data =>
      cases outcome with
      | accepted =>
          simp only [accepted, List.mem_ite_nil_right, List.mem_singleton] at member
          exact ⟨call, data, rfl, member⟩
      | failed err => cases member
      | badWr => cases member
  | _ => cases member

theorem accepted_addressedTo {peer : Fin nprocs} {posted : Posted}
    (member : posted ∈ node.accepted peer action) : posted.AddressedTo peer := by
  obtain ⟨call, data, -, rfl, rfl⟩ := accepted_origin member
  exact PostCall.wr_addressedTo ..

namespace Step

theorem reposted_forBuffer (step : Step node action node') {wr : RecvWr}
    (member : wr ∈ action.reposted) : wr.ForBuffer := by
  cases step with
  | repost atReturn performed =>
      obtain ⟨bufId, queue, -, rfl, -⟩ := Context.returnHead_some performed
      rw [List.mem_singleton.mp member]
      exact ⟨rfl, rfl, rfl⟩
  | _ => cases member

theorem formed (step : Step node action node') (formed : node.Formed) : node'.Formed := by
  refine ⟨?_, ?_, ?_⟩
  · intro wr member
    have before := step.srq_ledger.mem_iff.mpr (List.mem_append_right action.consumed member)
    rcases List.mem_append.mp before with listed | reposted
    · exact formed.srq wr listed
    · exact step.reposted_forBuffer reposted
  · intro peer posted member
    have before : posted ∈ node.sendQueue peer ++ node.accepted peer action := by
      rw [step.sendQueue_ledger peer]
      exact List.mem_append_right _ member
    rcases List.mem_append.mp before with listed | accepted
    · exact formed.sendQueue peer posted listed
    · exact accepted_addressedTo accepted
  · intro peer executed member
    have after : executed.posted ∈
        (action.completed peer ++ node'.executed peer).map Executed.posted :=
      List.mem_map_of_mem (List.mem_append_right _ member)
    rcases List.mem_append.mp ((step.executed_ledger peer).mem_iff.mpr after) with listed | launched
    · obtain ⟨earlier, listed, same⟩ := List.mem_map.mp listed
      rw [← same]
      exact formed.executed peer earlier listed
    · have queued : executed.posted ∈ node.sendQueue peer ++ node.accepted peer action := by
        rw [step.sendQueue_ledger peer]
        exact List.mem_append_left _ launched
      rcases List.mem_append.mp queued with listed | accepted
      · exact formed.sendQueue peer _ listed
      · exact accepted_addressedTo accepted

/-- `YMPI_Zrecv` hands out a buffer that was pending. -/
theorem fetched_pending (step : Step node action node') {id : Int} (member : id ∈ action.fetched) :
    ∃ source, id ∈ node.pending source := by
  cases step with
  | @received source ctx result atHead performed =>
      obtain ⟨queue, fetched, stored, -⟩ := Context.recvHead_some performed
      refine ⟨source, ?_⟩
      rw [List.mem_singleton.mp member, pending, stored]
      exact List.mem_cons_self
  | _ => cases member

theorem proper (step : Step node action node') (proper : node.Proper) : node'.Proper := by
  refine ⟨?_, ?_⟩
  · intro source id member
    have before : id ∈ node.pending source ++ node.queuedFor source action := by
      rw [step.pending_ledger proper source]
      exact List.mem_append_right _ member
    rcases List.mem_append.mp before with stored | queued
    · exact proper.pending source id stored
    · cases action with
      | handle wc =>
          simp only [queuedFor] at queued
          split at queued
          · rw [List.mem_singleton.mp queued]
            exact Int.natCast_nonneg _
          · cases queued
      | _ => cases queued
  · intro id member
    have before : id ∈ node.fetchedIds ++ action.fetched := by
      rw [step.fetched_ledger proper]
      exact List.mem_append_right _ member
    rcases List.mem_append.mp before with stored | fetched
    · exact proper.fetched id stored
    · obtain ⟨source, stored⟩ := step.fetched_pending fetched
      exact proper.pending source id stored

end Step

theorem Initial.formed (initial : node.Initial) : node.Formed := by
  refine ⟨?_, ?_, ?_⟩
  · simp [initial.srq_eq]
  · simp [initial.sendQueue_eq]
  · simp [initial.executed_eq]

theorem Initial.proper (initial : node.Initial) : node.Proper := by
  refine ⟨?_, ?_⟩
  · simp [initial.fresh.pending]
  · intro id member
    rw [fetchedIds, initial.fresh.fetched] at member
    obtain ⟨number, -, rfl⟩ := List.mem_map.mp member
    exact Int.natCast_nonneg _

variable {history : List (Action nprocs)}

theorem reaches_formed (reached : (system nprocs).Reaches history node) : node.Formed :=
  reached.invariant (fun _ => Initial.formed) fun _ _ _ => Step.formed

theorem execution_proper {labels : List (Action nprocs)}
    (execution : (system nprocs).Execution node labels node') (proper : node.Proper) :
    node'.Proper :=
  execution.invariant (fun _ _ _ _ step => step.proper) proper

theorem reaches_proper (reached : (system nprocs).Reaches history node) : node.Proper :=
  reached.invariant (fun _ => Initial.proper) fun _ _ _ => Step.proper

end Node

end Ympi.Messaging
