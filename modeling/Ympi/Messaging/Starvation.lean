import Ympi.Messaging.BufferConservation
import Ympi.Messaging.Runs

/-! # Starvation of an awaited source

All sources share the receive buffers. Those of messages that wait for a call of
`YMPI_Zrecv` with another source come back only through `YMPI_Return`, so a process
waiting for one source starves once the other sources and the caller have them all.
-/

namespace Ympi.Messaging

open LinkedList Foundation

variable {nprocs : ℕ}

namespace Node

/-- Something can bring `YMPI_Zrecv(source)` forward: a buffer for the message to
arrive in, a completion to handle, or a message that has been queued. -/
def Progresses (node : Node nprocs) (source : Fin nprocs) : Prop :=
  node.srq ≠ [] ∨ node.unhandled ≠ [] ∨ node.pending source ≠ []

/-- The buffers that `YMPI_Zrecv(source)` cannot use: those that the caller holds and
those pending for other sources. -/
def occupied (node : Node nprocs) (source : Fin nprocs) : ℕ :=
  node.fetchedIds.length + ∑ other ∈ Finset.univ.erase source, (node.pending other).length

variable {node : Node nprocs} {history : List (Action nprocs)}

/-- The receive buffers, by where they are. -/
theorem reaches_length (reached : (system nprocs).Reaches history node) (source : Fin nprocs) :
    node.srq.length + (recvIds node.unhandled).length + (node.pending source).length +
      node.occupied source + (history.flatMap Action.dropped).length = prepostDepth := by
  have whole := congrArg Multiset.card (reaches_sum_idsAt reached)
  rw [Multiset.card_add, Multiset.card_sum, Place.sum_eq] at whole
  simp only [Multiset.coe_card, idsAt, allIds, requestIds, List.length_map,
    List.length_range] at whole
  rw [← Finset.add_sum_erase Finset.univ _ (Finset.mem_univ source)] at whole
  unfold occupied
  omega

/-- A process waiting for a source progresses as long as a buffer is left for it, or a
completion of one of its own requests is unhandled. -/
theorem progresses_iff (reached : (system nprocs).Reaches history node) (source : Fin nprocs) :
    node.Progresses source ↔
      (node.occupied source + (history.flatMap Action.dropped).length < prepostDepth ∨
        ∃ wc ∈ node.unhandled, wc.isRecv = false) := by
  have whole := reaches_length reached source
  refine ⟨?_, ?_⟩
  · intro progresses
    by_cases own : ∃ wc ∈ node.unhandled, wc.isRecv = false
    · exact Or.inr own
    · apply Or.inl
      have all : (recvIds node.unhandled).length = node.unhandled.length := by
        rw [recvIds, List.length_map, List.filter_eq_self.mpr]
        intro wc member
        by_contra isSend
        exact own ⟨wc, member, Bool.eq_false_of_not_eq_true isSend⟩
      have positive : 0 < node.srq.length + node.unhandled.length +
          (node.pending source).length := by
        rcases progresses with some | some | some
        · have := List.length_pos_iff.mpr some
          omega
        · have := List.length_pos_iff.mpr some
          omega
        · have := List.length_pos_iff.mpr some
          omega
      omega
  · rintro (left | ⟨wc, member, -⟩)
    · by_contra stuck
      obtain ⟨noBuffer, others⟩ := not_or.mp stuck
      obtain ⟨noCompletion, nothing⟩ := not_or.mp others
      rw [not_not.mp noBuffer, not_not.mp noCompletion, not_not.mp nothing] at whole
      simp only [recvIds, List.filter_nil, List.map_nil, List.length_nil] at whole
      omega
    · exact Or.inr (Or.inl (List.ne_nil_of_mem member))

end Node

namespace Cluster

/-- `rank` waits in `YMPI_Zrecv(source)` for a message that has been posted, holds fewer
than all buffers, and yet nothing can bring it forward. -/
structure Starves (cluster : Cluster nprocs) (rank source : Fin nprocs) : Prop where
  waiting : (cluster rank).pc = .head (.recv source)
  undelivered : ∃ posted ∈ (cluster source).sendQueue rank, posted.wr.opcode = .send
  held : (cluster rank).fetchedIds.length < prepostDepth
  stuck : ¬ (cluster rank).Progresses source

/-- `rank` waits for `other` while `source` sends `count` messages to it. -/
structure Flooded (cluster : Cluster nprocs) (rank source other : Fin nprocs) (count : ℕ) :
    Prop where
  waiting : (cluster rank).pc = .head (.recv other)
  unpolled : (cluster rank).cq = []
  nothing : (cluster rank).pending other = []
  held : (cluster rank).fetchedIds = []
  buffers : count ≤ (cluster rank).srq.length
  requests : ∀ wr ∈ (cluster rank).srq, wr.ForBuffer
  room : ((cluster rank).pending source).length + count ≤ recvPerProcess
  idle : 0 < count → (cluster source).pc = .idle 0
  sent : (cluster source).sendQueue rank = []
  below : (cluster source).ctx.qpPendingSendWr rank + count ≤ maxSendWrPerQp

/-- One message of a source that is not awaited arrives and is queued. -/
theorem flood_step {rank source other : Fin nprocs} (apart : source ≠ rank)
    (unawaited : source ≠ other) {count : ℕ} {cluster : Cluster nprocs} {qpNum : ℕ}
    (present : (cluster source).ctx.qps.qpList rank ≠ none)
    (paired : (cluster rank).ctx.qps.qpList source = some qpNum)
    (flooded : Flooded cluster rank source other (count + 1)) :
    ∃ labels next, (system nprocs).Execution cluster labels next ∧
      Flooded next rank source other count ∧
      (next rank).srq.length + 1 = (cluster rank).srq.length ∧
      ((next rank).pending source).length = ((cluster rank).pending source).length + 1 ∧
      (next source).ctx.qps = (cluster source).ctx.qps ∧
      (next rank).ctx.qps = (cluster rank).ctx.qps ∧
      ∀ others, others ≠ rank → others ≠ source → next others = cluster others := by
  obtain ⟨wr, rest, posted⟩ : ∃ wr rest, (cluster rank).srq = wr :: rest := by
    apply List.exists_cons_of_length_pos
    have := flooded.buffers
    omega
  obtain ⟨sender, sent, ctx, emptied, pc⟩ := send_run apart
    (flooded.idle (Nat.succ_pos count)) present flooded.sent paired posted
  let arrived : Node nprocs := { cluster rank with
    srq := rest
    cq := (cluster rank).cq ++ [recvWc wr qpNum []] }
  have listed : arrived.cq = recvWc wr qpNum [] :: [] := by
    simp [arrived, flooded.unpolled]
  have tag := (flooded.requests wr (by rw [posted]; exact List.mem_cons_self)).tag
  have isFrom : arrived.isFrom source (recvWc wr qpNum []) :=
    ⟨by simp [Wc.isRecv, recvWc, tag], arrived.ctx.qps.rank_eq source qpNum paired⟩
  have atHead : arrived.pc = .head (.recv other) := flooded.waiting
  have room : (arrived.pending source).length < recvPerProcess := by
    have space : (arrived.pending source).length + (count + 1) ≤ recvPerProcess := flooded.room
    omega
  obtain ⟨queue, stored, taken⟩ := Node.take_waiting_run atHead flooded.nothing listed
    (by simp [recvWc]) isFrom room
  let taker : Node nprocs := { arrived with
    ctx := arrived.ctx.queued (recvWc wr qpNum []) source queue
    pc := .head (.recv other)
    cq := [] }
  let next : Cluster nprocs :=
    Function.update (Function.update cluster source sender) rank taker
  have moved := execution_update (Function.update cluster source sender) rank taken (by
    intro action member
    simp only [List.mem_cons, List.not_mem_nil, or_false] at member
    rcases member with rfl | rfl | rfl <;> rfl)
  have atRank : next rank = taker := Function.update_self ..
  have atSource : next source = sender := by
    rw [show next source = _ from Function.update_of_ne apart .., Function.update_self]
  have length : (cluster rank).srq.length = rest.length + 1 := by
    rw [posted, List.length_cons]
  have queued : (taker.pending source).length = ((cluster rank).pending source).length + 1 := by
    have taken : taker.pending source = queue.contents :=
      congrArg PooledQueue.contents (arrived.ctx.queued_pending_self _ source queue)
    rw [taken, stored, List.length_append, List.length_singleton]
  refine ⟨_, next, sent.append moved, ?_, ?_, ?_, ?_, ?_, ?_⟩
  · refine ⟨?_, ?_, ?_, ?_, ?_, ?_, ?_, ?_, ?_, ?_⟩
    · rw [atRank]
    · rw [atRank]
    · rw [atRank]
      rw [← flooded.nothing]
      exact congrArg PooledQueue.contents
        (arrived.ctx.queued_pending_of_ne _ queue unawaited.symm)
    · rw [atRank]
      exact flooded.held
    · rw [atRank]
      have enough := flooded.buffers
      change count ≤ rest.length
      omega
    · rw [atRank]
      intro wr' member
      exact flooded.requests wr' (by rw [posted]; exact List.mem_cons_of_mem _ member)
    · rw [atRank]
      have space := flooded.room
      omega
    · intro more
      rw [atSource, pc, if_neg]
      have limit := flooded.below
      omega
    · rw [atSource]
      exact emptied
    · rw [atSource, ctx, Context.incPending_self]
      have limit := flooded.below
      omega
  · rw [atRank, length]
  · rw [atRank, queued]
  · rw [atSource, ctx]
    rfl
  · rw [atRank]
    rfl
  · intro third apart' apart''
    rw [show next third = _ from Function.update_of_ne apart' .., Function.update_of_ne apart'']

/-- The messages of a source that is not awaited arrive and are queued. -/
theorem flood_run {rank source other : Fin nprocs} (apart : source ≠ rank)
    (unawaited : source ≠ other) (count : ℕ) {cluster : Cluster nprocs} {qpNum : ℕ}
    (present : (cluster source).ctx.qps.qpList rank ≠ none)
    (paired : (cluster rank).ctx.qps.qpList source = some qpNum)
    (flooded : Flooded cluster rank source other count) :
    ∃ labels after, (system nprocs).Execution cluster labels after ∧
      Flooded after rank source other 0 ∧
      (after rank).srq.length + count = (cluster rank).srq.length ∧
      ((after rank).pending source).length = ((cluster rank).pending source).length + count ∧
      ∀ others, others ≠ rank → others ≠ source → after others = cluster others := by
  induction count generalizing cluster with
  | zero => exact ⟨[], cluster, .refl cluster, flooded, rfl, rfl, fun _ _ _ => rfl⟩
  | succ count ih =>
      obtain ⟨front, next, first, flooded', taken, queued, sender, receiver, unchanged⟩ :=
        flood_step apart unawaited present paired flooded
      obtain ⟨back, after, others, done, left, waiting, same⟩ :=
        ih (by rw [sender]; exact present) (by rw [receiver]; exact paired) flooded'
      refine ⟨_, after, first.append others, done, by omega, by omega, ?_⟩
      intro third apart' apart''
      rw [same third apart' apart'', unchanged third apart' apart'']

/-- Rank 0 of three waits for a message of rank 1, and has taken messages of rank 2. -/
theorem exists_flooded {count : ℕ} (few : count ≤ prepostDepth) :
    ∃ labels, ∃ cluster : Cluster 3, (system 3).Reaches labels cluster ∧
      Flooded cluster 0 2 1 0 ∧ (cluster 0).srq.length + count = prepostDepth ∧
      ((cluster 0).pending 2).length = count ∧ (cluster 1).Started ∧
      (cluster 1).ctx.qps.qpList 0 = some 0 := by
  obtain ⟨labels, start, reached, -, started⟩ :=
    exists_started fun _ : Fin 3 => QpTable.direct 3 (by decide)
  obtain ⟨ready, tables⟩ := started 0
  have paired (rank peer : Fin 3) : (start rank).ctx.qps.qpList peer = some peer.val := by
    rw [(started rank).2]
    rfl
  -- Rank 0 calls `YMPI_Zrecv` for rank 1.
  let calling : Node 3 := { start 0 with pc := .head (.recv 1) }
  let called : Cluster 3 := Function.update start 0 calling
  have call : Step start (.act 0 (.zrecv 1)) called := .act rfl (Node.Step.zrecv 1 ready.pc_eq)
  have atCaller : called 0 = calling := Function.update_self ..
  have sender (rank : Fin 3) (apart : rank ≠ 0) : called rank = start rank :=
    Function.update_of_ne apart ..
  have others : called 2 = start 2 := sender 2 (by decide)
  -- Rank 2 sends.
  have flooded : Flooded called 0 2 1 count := by
    refine ⟨?_, ?_, ?_, ?_, ?_, ?_, ?_, ?_, ?_, ?_⟩
    · rw [atCaller]
    · rw [atCaller]
      exact ready.cq_eq
    · rw [atCaller]
      exact ready.pending_eq 1
    · rw [atCaller]
      exact ready.fetched_eq
    · rw [atCaller]
      change _ ≤ (start 0).srq.length
      simpa [ready.srq_eq] using few
    · rw [atCaller]
      exact (Node.reaches_formed (reaches_node reached 0)).srq
    · rw [atCaller]
      change ((start 0).pending 2).length + _ ≤ _
      rw [ready.pending_eq 2, List.length_nil, Nat.zero_add]
      exact few.trans (by decide)
    · intro _
      rw [others]
      exact (started 2).1.pc_eq
    · rw [others]
      exact (started 2).1.sendQueue_eq 0
    · rw [others, (started 2).1.qpPending_eq 0, zero_add]
      exact_mod_cast few
  obtain ⟨flood, after, run, done, left, queued, same⟩ := flood_run (by decide) (by decide) count
    (by rw [others, paired]; exact Option.some_ne_none _) (by rw [atCaller]; exact paired 0 2)
    flooded
  rw [atCaller] at left queued
  refine ⟨_, after, (reached.step call).append run, done, ?_, ?_, ?_, ?_⟩
  · rw [left]
    change (start 0).srq.length = _
    simp [ready.srq_eq]
  · rw [queued]
    change ((start 0).pending 2).length + _ = _
    rw [ready.pending_eq 2, List.length_nil, Nat.zero_add]
  · rw [same 1 (by decide) (by decide), sender 1 (by decide)]
    exact (started 1).1
  · rw [same 1 (by decide) (by decide), sender 1 (by decide)]
    exact paired 1 0

/-- **Starvation.** Rank 0 of three waits for a message of rank 1, which has been
posted. The 256 messages that rank 2 sent first have taken all receive buffers, of
which rank 0 has been handed none. -/
theorem receive_starves : ∃ labels, ∃ cluster : Cluster 3, (system 3).Reaches labels cluster ∧
    Starves cluster 0 1 := by
  obtain ⟨labels, after, reached, done, left, -, ready, paired⟩ := exists_flooded le_rfl
  -- Rank 1 sends the message that rank 0 waits for.
  have receiver : (0 : Fin 3) ≠ 1 := by decide
  have present : (after 1).ctx.qps.qpList 0 ≠ none := by
    rw [paired]
    exact Option.some_ne_none _
  have performed := PostCall.perform_ok emptySend_inBounds
    (show (after 1).ctx.qps.qpList (emptySend 0 : PostCall 3).dest ≠ none from present)
  have sent := Node.Step.postAccepted ready.pc_eq performed
  refine ⟨_, _, reached.step (.act rfl sent), ?_, ?_, ?_, ?_⟩
  · rw [Function.update_of_ne receiver]
    exact done.waiting
  · rw [Function.update_self]
    refine ⟨⟨(emptySend 0).wr (after 1).ctx,
      ((emptySend 0).wr (after 1).ctx).gather (after 1).mem⟩, ?_, rfl⟩
    change _ ∈ Function.update (after 1).sendQueue 0 _ 0
    rw [Function.update_self]
    exact List.mem_append_right _ List.mem_cons_self
  · rw [Function.update_of_ne receiver, done.held]
    decide
  · rw [Function.update_of_ne receiver]
    rintro (buffer | completion | message)
    · exact buffer (List.eq_nil_of_length_eq_zero (by omega))
    · exact completion (by rw [Node.unhandled, done.waiting, done.unpolled]; rfl)
    · exact message done.nothing

end Cluster

/-- **Progress of an awaited source.** In every reached state, whatever a process waits
for, it can come forward exactly when a buffer is left for that source, or a completion
of one of its own requests is unhandled. -/
theorem receive_progress {labels : List (Label nprocs)} {cluster : Cluster nprocs}
    (reached : (Cluster.system nprocs).Reaches labels cluster) (rank source : Fin nprocs) :
    (cluster rank).Progresses source ↔
      ((cluster rank).occupied source +
          ((nodeHistory rank labels).flatMap Action.dropped).length < prepostDepth ∨
        ∃ wc ∈ (cluster rank).unhandled, wc.isRecv = false) :=
  Node.progresses_iff (reaches_node reached rank) source

/-- With three messages of another source pending, the awaited one can come forward. -/
theorem receive_progress_pending : ∃ labels, ∃ cluster : Cluster 3,
    (Cluster.system 3).Reaches labels cluster ∧ (cluster 0).pc = .head (.recv 1) ∧
      ((cluster 0).pending 2).length = 3 ∧ (cluster 0).Progresses 1 := by
  obtain ⟨labels, cluster, reached, flooded, left, queued, -, -⟩ :=
    Cluster.exists_flooded (show 3 ≤ prepostDepth by decide)
  refine ⟨labels, cluster, reached, flooded.waiting, queued,
    (receive_progress reached 0 1).mpr (Or.inl ?_)⟩
  have whole := Node.reaches_length (reaches_node reached 0) 1
  have many : prepostDepth = 256 := rfl
  omega

end Ympi.Messaging
