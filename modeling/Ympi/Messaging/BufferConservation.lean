import Ympi.Messaging.Runs

/-! # Conservation of receive buffers

A receive buffer is posted, in an unhandled completion, pending for one source, or
handed out. The number of its occurrences in all these places together changes only
when posting it fails, so a buffer is never lost and never in two places.
-/

namespace Ympi.Messaging

open LinkedList Foundation

variable {nprocs : ℕ}

/-- Where a receive buffer can be. -/
inductive Place (nprocs : ℕ) where
  | srq
  | completion
  | pending (source : Fin nprocs)
  | fetched
  deriving DecidableEq

namespace Place

/-- The places are three single ones and one for each source. -/
def equivOption : Place nprocs ≃ Option (Option (Option (Fin nprocs))) where
  toFun
    | .srq => none
    | .completion => some none
    | .fetched => some (some none)
    | .pending source => some (some (some source))
  invFun
    | none => .srq
    | some none => .completion
    | some (some none) => .fetched
    | some (some (some source)) => .pending source
  left_inv place := by cases place <;> rfl
  right_inv place := by rcases place with _ | _ | _ | source <;> rfl

instance : Fintype (Place nprocs) :=
  .ofEquiv _ equivOption.symm

theorem sum_eq (weight : Place nprocs → ℕ) :
    (∑ place, weight place) = weight .srq + (weight .completion +
      (weight .fetched + ∑ source, weight (.pending source))) := by
  rw [← Equiv.sum_comp equivOption.symm weight, Fintype.sum_option, Fintype.sum_option,
    Fintype.sum_option]
  rfl

end Place

/-- The buffers that receive requests are for. -/
def requestIds (wrs : List RecvWr) : List Int :=
  wrs.map fun wr => (wr.wrId.id : Int)

/-- The buffers that completions of receive requests are for. -/
def recvIds (wcs : List Wc) : List Int :=
  (wcs.filter Wc.isRecv).map fun wc => (wc.wrId.id : Int)

theorem requestIds_append (front back : List RecvWr) :
    requestIds (front ++ back) = requestIds front ++ requestIds back :=
  List.map_append

theorem recvIds_append (front back : List Wc) :
    recvIds (front ++ back) = recvIds front ++ recvIds back := by
  rw [recvIds, List.filter_append, List.map_append]
  rfl

namespace Action

theorem count_handedOut (action : Action nprocs) (id : Int) :
    (∑ source, (action.handedOut source).count id) = action.fetched.count id := by
  cases action with
  | received target result payload =>
      rw [Finset.sum_eq_single target]
      · simp [handedOut, fetched]
      · intro source _ other
        simp [handedOut, Ne.symm other]
      · exact fun outside => absurd (Finset.mem_univ target) outside
  | _ => simp [handedOut, fetched]

/-- A buffer that `YMPID_Return` takes is posted or dropped. -/
theorem count_unfetched (action : Action nprocs) (id : Int) :
    action.unfetched.count id =
      (requestIds action.reposted).count id + action.dropped.count id := by
  cases action with
  | repost wr posted => cases posted <;> simp [unfetched, reposted, dropped, requestIds]
  | _ => rfl

end Action

namespace Node

/-- The buffers in a place, with repetitions. -/
def idsAt (node : Node nprocs) : Place nprocs → List Int
  | .srq => requestIds node.srq
  | .completion => recvIds node.unhandled
  | .pending source => node.pending source
  | .fetched => node.fetchedIds

/-- How often a buffer occurs in all places together. -/
def occurrences (node : Node nprocs) (id : Int) : ℕ :=
  ∑ place, (node.idsAt place).count id

/-- The buffer is in this place, once, and in no other. -/
structure HeldOnce (node : Node nprocs) (id : Int) (place : Place nprocs) : Prop where
  once : (node.idsAt place).count id = 1
  nowhereElse : ∀ other, other ≠ place → id ∉ node.idsAt other

/-- A buffer that occurs once is in exactly one place. -/
theorem exists_heldOnce {node : Node nprocs} {id : Int} (single : node.occurrences id = 1) :
    ∃ place, node.HeldOnce id place := by
  obtain ⟨place, here, elsewhere⟩ := exists_of_sum_eq_one single
  exact ⟨place, here, fun other apart => List.count_eq_zero.mp (elsewhere other apart)⟩

/-- A buffer that is anywhere occurs. -/
theorem occurrences_pos {node : Node nprocs} {id : Int} {place : Place nprocs}
    (member : id ∈ node.idsAt place) : 0 < node.occurrences id := by
  have here : 0 < (node.idsAt place).count id := List.count_pos_iff.mpr member
  rw [occurrences, ← Finset.add_sum_erase Finset.univ _ (Finset.mem_univ place)]
  exact Nat.lt_add_right _ here

variable {node node' : Node nprocs} {action : Action nprocs}

namespace Step

/-- The HCA produces a receive completion for each receive request that is consumed. -/
theorem recvIds_produced (step : Step node action node') (formed : node.Formed) :
    recvIds (node.produced action) = requestIds action.consumed := by
  cases step with
  | @complete peer front back executed qpNum status listed paired =>
      have tag := (formed.executed peer executed (by rw [listed]; simp)).tag
      simp [produced, paired, recvIds, Wc.isRecv, tag, requestIds, Action.consumed]
  | @arrive peer front back wr qpNum payload listed paired =>
      have tag := (formed.srq wr (by rw [listed]; simp)).tag
      simp [produced, paired, recvIds, Wc.isRecv, recvWc, tag, requestIds, Action.consumed]
  | _ => rfl

/-- A handled receive completion queues its buffer for exactly one source. -/
theorem count_queuedFor (step : Step node action node') (id : Int) :
    (∑ source, (node.queuedFor source action).count id) = (recvIds action.handled).count id := by
  cases step with
  | @handle loop wc rest ctx handling performed =>
      obtain ⟨-, ⟨isSend, -⟩ | ⟨isRecv, target, -, ranked, -⟩⟩ := Context.processWc_eq_ok performed
      · simp [queuedFor, isFrom, isSend, recvIds, Action.handled]
      · rw [Finset.sum_eq_single target]
        · have from' : node.isFrom target wc := ⟨isRecv, ranked⟩
          simp [queuedFor, from', recvIds, isRecv, Action.handled]
        · intro source _ other
          have elsewhere : ¬ node.isFrom source wc := fun both => by
            have equal := Except.ok.inj (ranked.symm.trans both.2)
            exact other (Fin.ext (by omega))
          simp [queuedFor, elsewhere]
        · exact fun outside => absurd (Finset.mem_univ target) outside
  | _ => simp [queuedFor, recvIds, Action.handled]

/-- **Conservation.** A step changes the number of occurrences of a buffer only by
dropping it. -/
theorem occurrences_ledger (step : Step node action node') (formed : node.Formed)
    (proper : node.Proper) (id : Int) :
    node'.occurrences id + action.dropped.count id = node.occurrences id := by
  have srq : (requestIds node.srq).count id + (requestIds action.reposted).count id =
      (requestIds action.consumed).count id + (requestIds node'.srq).count id := by
    have moved := (step.srq_ledger.map fun wr : RecvWr => (wr.wrId.id : Int)).count_eq id
    rw [List.map_append, List.map_append, List.count_append, List.count_append] at moved
    exact moved
  have completion : (recvIds node.unhandled).count id + (requestIds action.consumed).count id =
      (recvIds action.handled).count id + (recvIds node'.unhandled).count id := by
    rw [← step.recvIds_produced formed, ← List.count_append, ← List.count_append,
      ← recvIds_append, ← recvIds_append, step.unhandled_ledger]
  have pending : (∑ source, (node.pending source).count id) + (recvIds action.handled).count id =
      action.fetched.count id + ∑ source, (node'.pending source).count id := by
    rw [← step.count_queuedFor id, ← action.count_handedOut id, ← Finset.sum_add_distrib,
      ← Finset.sum_add_distrib]
    refine Finset.sum_congr rfl fun source _ => ?_
    rw [← List.count_append, ← List.count_append, step.pending_ledger proper source]
  have fetched : node.fetchedIds.count id + action.fetched.count id =
      action.unfetched.count id + node'.fetchedIds.count id := by
    rw [← List.count_append, ← List.count_append, step.fetched_ledger proper]
  have returned : action.unfetched.count id =
      (requestIds action.reposted).count id + action.dropped.count id :=
    action.count_unfetched id
  simp only [occurrences, Place.sum_eq, idsAt]
  omega

end Step

/-- All receive buffers. -/
def allIds : List Int :=
  (List.range prepostDepth).map Int.ofNat

theorem count_allIds (id : Int) :
    allIds.count id = if 0 ≤ id ∧ id < prepostDepth then 1 else 0 := by
  have distinct : allIds.Nodup := List.nodup_range.map fun _ _ => Int.ofNat.inj
  have numbers : id ∈ allIds ↔ 0 ≤ id ∧ id < prepostDepth := by
    rw [allIds, List.mem_map]
    refine ⟨?_, ?_⟩
    · rintro ⟨number, member, rfl⟩
      have below := List.mem_range.mp member
      exact ⟨Int.natCast_nonneg _, Int.ofNat_lt.mpr below⟩
    · rintro ⟨nonneg, below⟩
      exact ⟨id.toNat, List.mem_range.mpr (by omega), Int.toNat_of_nonneg nonneg⟩
  simp only [distinct.count, numbers]

/-- A process starts with each receive buffer once, in `vbuf_fetched`. -/
theorem Initial.occurrences_eq (initial : node.Initial) (id : Int) :
    node.occurrences id = allIds.count id := by
  have stored : node.fetchedIds = allIds := initial.fresh.fetched
  simp only [occurrences, Place.sum_eq, idsAt, initial.srq_eq, initial.unhandled_eq,
    initial.fresh.pending, stored]
  simp [requestIds, recvIds]

/-- Along a run the occurrences of a buffer and its failed posts make up the one
occurrence that it started with. -/
theorem reaches_occurrences {history : List (Action nprocs)}
    (reached : (system nprocs).Reaches history node) (id : Int) :
    node.occurrences id + (history.flatMap Action.dropped).count id = allIds.count id := by
  refine reached.induction (motive := fun history node => node.occurrences id +
    (history.flatMap Action.dropped).count id = allIds.count id) ?_ ?_
  · intro start initial
    rw [initial.occurrences_eq id]
    rfl
  · intro labels before action after earlier balance step
    have moved := step.occurrences_ledger (reaches_formed earlier) (reaches_proper earlier) id
    rw [List.flatMap_append, List.flatMap_singleton, List.count_append]
    omega

/-- Whatever happens to the posts, no buffer is ever in two places. -/
theorem reaches_occurrences_le {history : List (Action nprocs)}
    (reached : (system nprocs).Reaches history node) (id : Int) : node.occurrences id ≤ 1 := by
  have balance := reaches_occurrences reached id
  rw [count_allIds] at balance
  split at balance <;> omega

/-- Along a run the buffers in all places and the dropped ones are all buffers. -/
theorem reaches_sum_idsAt {history : List (Action nprocs)}
    (reached : (system nprocs).Reaches history node) :
    (∑ place, (node.idsAt place : Multiset Int)) +
      (history.flatMap Action.dropped : Multiset Int) = (allIds : Multiset Int) := by
  apply Multiset.ext.mpr
  intro id
  simp only [Multiset.count_add, Multiset.count_sum', Multiset.coe_count]
  exact reaches_occurrences reached id

/-- Without a failed post nothing is dropped. -/
theorem dropped_eq_nil {history : List (Action nprocs)}
    (posted : ∀ wr, Action.repost wr false ∉ history) : history.flatMap Action.dropped = [] := by
  rw [List.flatMap_eq_nil_iff]
  intro action member
  cases action with
  | repost wr success =>
      cases success with
      | true => rfl
      | false => exact absurd member (posted wr)
  | _ => rfl

/-- **Receive-buffer conservation.** While every `ibv_post_srq_recv` succeeds, every
receive buffer is in exactly one place, once, and no place has any other buffer. -/
theorem receive_buffers_conserved {history : List (Action nprocs)} {node : Node nprocs}
    (reached : (system nprocs).Reaches history node)
    (posted : ∀ wr, Action.repost wr false ∉ history) :
    (∀ number : ℕ, number < prepostDepth → ∃ place, node.HeldOnce number place) ∧
      ∀ place, ∀ id ∈ node.idsAt place, 0 ≤ id ∧ id < prepostDepth := by
  refine ⟨?_, ?_⟩
  · intro number below
    have balance := reaches_occurrences reached number
    rw [dropped_eq_nil posted, count_allIds, if_pos (by omega)] at balance
    exact exists_heldOnce balance
  · intro place id member
    have balance := reaches_occurrences reached id
    have positive := occurrences_pos member
    rw [count_allIds] at balance
    split at balance
    next inside => exact inside
    next => omega

/-- A process of three with buffers in every place. -/
theorem receive_buffers_conserved_scattered : ∃ (history : List (Action 3)) (node : Node 3),
    (system 3).Reaches history node ∧ node.idsAt .fetched = [0] ∧ node.idsAt (.pending 1) = [1] ∧
      node.idsAt .completion = [2] ∧ (node.idsAt .srq).length = 253 ∧
      (∀ number : ℕ, number < prepostDepth → ∃ place, node.HeldOnce number place) ∧
      ∀ place, ∀ id ∈ node.idsAt place, 0 ≤ id ∧ id < prepostDepth := by
  obtain ⟨history, node, reached, posted, scattered⟩ := exists_scattered
  obtain ⟨wc, listed, named⟩ := scattered.unpolled
  refine ⟨history, node, reached, scattered.fetched, scattered.pending, ?_, ?_,
    receive_buffers_conserved reached posted⟩
  · rw [idsAt, unhandled, scattered.waiting, listed]
    simp [recvIds, Wc.isRecv, named, Pc.batch]
  · rw [idsAt, requestIds, List.length_map, scattered.posted]

end Node

end Ympi.Messaging
