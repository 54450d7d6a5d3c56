import Ympi.Clients.CompletionQueue
import Ympi.Messaging.RdmaRequests

/-! # Programs within the limits of the hardware

Nothing in the library keeps the completion queue from being overrun, and the HCA reads the bytes of
a request when it sends them. A program within the limits posts so little before it flushes that all
completions have their entries, and leaves the bytes of a request alone until the request is
complete. Then it does not matter at which moment the HCA reads them.
-/

namespace Ympi.Clients

open LinkedList Foundation Messaging

variable {nprocs : ℕ} {σ : Type}

/-- A bound on the requests that the programs post before they flush. With one completion for each
receive buffer they fit into the completion queue. -/
structure Bounded (client : Client nprocs σ) (start : Fin nprocs → σ) where
  cap : ℕ
  load : Load client cap
  light : ∀ rank, load.light rank (start rank)
  few : cap + prepostDepth ≤ cqEntries

/-- The runs of programs within the limits, which leave the bytes of their requests alone. -/
def Bounded.runs {client : Client nprocs σ} {start : Fin nprocs → σ}
    (_bounded : Bounded client start) (held : Fin nprocs → ℕ) :
    LabelledSystem (State nprocs σ) (Label nprocs) :=
  client.careful start held

/-- The bytes that the requests under way are to carry are still in their places. -/
def Intact (node : Node nprocs) : Prop :=
  ∀ peer, ∀ posted ∈ underWay node peer, posted.wr.sendFlags.inlined = false →
    posted.data = posted.wr.gather node.mem

section Nodes

variable {node node' : Node nprocs} {action : Action nprocs} {peer : Fin nprocs} {posted : Posted}

theorem mem_underWay : posted ∈ underWay node peer ↔
    (∃ executed ∈ node.executed peer, executed.posted = posted) ∨
      posted ∈ node.sendQueue peer := by
  rw [underWay, List.mem_append, List.mem_map]

/-- A request under way was so before, or has been accepted in the step. -/
theorem underWay_node (step : Node.Step node action node')
    (member : posted ∈ underWay node' peer) :
    posted ∈ underWay node peer ∨ posted ∈ node.accepted peer action := by
  rw [mem_underWay] at member
  rcases member with ⟨executed, member, rfl⟩ | queued
  · refine Or.inl (mem_underWay.mpr ?_)
    cases step with
    | @execute target posted rest done fetched listed =>
        by_cases same : target = peer
        · subst same
          simp only [Function.update_self] at member
          rcases List.mem_append.mp member with before | last
          · exact Or.inl ⟨executed, before, rfl⟩
          · rw [List.mem_singleton.mp last, listed]
            exact Or.inr List.mem_cons_self
        · simp only [Function.update_of_ne (Ne.symm same)] at member
          exact Or.inl ⟨executed, member, rfl⟩
    | @complete target front back completed qpNum status listed =>
        by_cases same : target = peer
        · subst same
          simp only [Function.update_self] at member
          refine Or.inl ⟨executed, ?_, rfl⟩
          rw [listed]
          rcases List.mem_append.mp member with first | last
          · exact List.mem_append_left _ first
          · exact List.mem_append_right _ (List.mem_cons_of_mem _ last)
        · simp only [Function.update_of_ne (Ne.symm same)] at member
          exact Or.inl ⟨executed, member, rfl⟩
    | _ => exact Or.inl ⟨executed, member, rfl⟩
  · rcases step.sendQueue_origin queued with before | accepted
    · exact Or.inl (mem_underWay.mpr (Or.inr before))
    · exact Or.inr accepted

/-- An accepted request carries the bytes that are in their places. -/
theorem data_of_accepted (accepted : posted ∈ node.accepted peer action) :
    posted.data = posted.wr.gather node.mem := by
  unfold Node.accepted at accepted
  split at accepted
  next =>
    rw [List.mem_ite_nil_right, List.mem_singleton] at accepted
    rw [accepted.2]
  next => cases accepted

end Nodes

section Clusters

variable {cluster cluster' : Cluster nprocs} {label : Label nprocs} {rank peer : Fin nprocs}
  {posted : Posted}

/-- The requests under way in a cluster come from posts of their processes. -/
theorem underWay_origin (step : Cluster.Step cluster label cluster')
    (member : posted ∈ underWay (cluster' rank) peer) :
    posted ∈ underWay (cluster rank) peer ∨
      ∃ action, label = .act rank action ∧ posted ∈ (cluster rank).accepted peer action := by
  rcases step.node_cases rank with ⟨action, rfl, own⟩ | ⟨execution, network⟩
  · rcases underWay_node own member with before | accepted
    · exact Or.inl before
    · exact Or.inr ⟨action, rfl, accepted⟩
  · apply Or.inl
    revert member
    refine execution.invariant (motive := fun node => posted ∈ underWay node peer →
      posted ∈ underWay (cluster rank) peer) ?_ id
    intro before action listed after moved earlier member
    rcases underWay_node moved member with old | accepted
    · exact earlier old
    · rw [Node.Step.accepted_network (network action listed)] at accepted
      cases accepted

end Clusters

section States

variable {client : Client nprocs σ} {start : Fin nprocs → σ} {held : Fin nprocs → ℕ}
  {labels : List (Label nprocs)} {label : Label nprocs} {state after : State nprocs σ}

/-- Messages change the memory of no application: only its process does. -/
theorem mem_cases (reached : (client.system start held).Reaches labels state)
    (acts : Cluster.Step state.cluster label after.cluster) (rank : Fin nprocs) :
    (after.cluster rank).mem = (state.cluster rank).mem ∨
      label = .act rank (.store (after.cluster rank).mem) := by
  have sends (source dest : Fin nprocs) {posted : Posted}
      (queued : posted ∈ (state.cluster source).sendQueue dest) : posted.wr.opcode = .send :=
    ((reaches_sound reached source).sends dest posted queued).1
  have effect := acts.memory_effect rank
  generalize (after.cluster rank).mem = mem at effect
  cases effect with
  | same => exact Or.inl rfl
  | stored => exact Or.inr rfl
  | landed =>
      obtain ⟨write, queued⟩ := acts.rdmaWrite_queued
      rw [sends _ _ queued] at write
      cases write
  | fetched =>
      obtain ⟨read, queued⟩ := acts.rdmaRead_queued
      rw [sends _ _ queued] at read
      cases read

/-- A step of processes that leave the bytes of their requests alone keeps them intact. -/
theorem Intact.step (reached : (client.system start held).Reaches labels state)
    (step : (client.careful start held).Step state label after) {rank : Fin nprocs}
    (intact : Intact (state.cluster rank)) : Intact (after.cluster rank) := by
  intro peer posted member copied
  have acts := Client.Step.cluster step.1
  rcases mem_cases reached acts rank with same | stores
  · rw [same]
    rcases underWay_origin acts member with before | ⟨action, -, accepted⟩
    · exact intact peer posted before copied
    · exact data_of_accepted accepted
  · have leaves := step.2
    subst stores
    rcases underWay_origin acts member with before | ⟨action, stores, accepted⟩
    · exact (intact peer posted before copied).trans (leaves peer posted before copied).symm
    · cases stores
      cases accepted

/-- **Bytes in place.** The bytes of the requests that are not complete stay as they were posted. -/
theorem reaches_intact (reached : (client.careful start held).Reaches labels state)
    (rank : Fin nprocs) : Intact (state.cluster rank) := by
  revert rank
  refine reached.induction (motive := fun _ state => ∀ rank, Intact (state.cluster rank)) ?_ ?_
  · intro first initial rank peer posted member
    obtain ⟨setup, rested⟩ := initial.rested
    have none := rested.settled rank peer
    have some := List.length_pos_of_mem member
    rw [underWay, List.length_append, List.length_map] at some
    unfold Node.outstanding at none
    omega
  · intro labels before label after earlier intact step rank
    exact (intact rank).step earlier.of_restrict step

end States

namespace Bounded

variable {client : Client nprocs σ} {start : Fin nprocs → σ} (bounded : Bounded client start)
  {held : Fin nprocs → ℕ} {labels : List (Label nprocs)} {state : State nprocs σ}

/-- The runs within the limits are runs of the programs. -/
theorem reaches (reached : (bounded.runs held).Reaches labels state) :
    (client.system start held).Reaches labels state :=
  LabelledSystem.Reaches.of_restrict reached

/-- The completions have entries on the queue. -/
theorem cq_le (reached : (bounded.runs held).Reaches labels state) (rank : Fin nprocs) :
    (state.cluster rank).cq.length ≤ cqEntries :=
  (reaches_cq_le bounded.load bounded.light (bounded.reaches reached) rank).trans bounded.few

end Bounded

end Ympi.Clients
