import Mathlib.Algebra.Order.BigOperators.Group.Finset
import Ympi.Messaging.SendAccounting

/-! # RDMA requests and the flush

An RDMA request that has not taken effect stays visible: it is in the send queue, it
was refused by the peer, or it has completed with an error, which no call survives.
A process that ends `YMPI_Zflush` has no request outstanding, so all of its RDMA
requests have taken effect.
-/

namespace Ympi.Messaging

open LinkedList Foundation

variable {nprocs : ℕ}

namespace Action

/-- The memory of the application after the step. -/
def memory (mem : ℕ → UInt8) : Action nprocs → ℕ → UInt8
  | .store stored => stored
  | .execute _ posted _ fetched => posted.wr.scatter mem fetched
  | .land address data => writeBlock mem address data
  | _ => mem

/-- An RDMA request for `peer` takes effect. -/
def Effects (peer : Fin nprocs) : Action nprocs → Prop
  | .execute target posted true _ => target = peer ∧ posted.wr.opcode ≠ .send
  | _ => False

end Action

/-- The process is in `YMPI_Zflush` or has ended. -/
def Pc.inFlush : Pc nprocs → Bool
  | .head .flush => true
  | .polling .flush => true
  | .handling .flush _ => true
  | .halted .. => true
  | _ => false

/-- Only the fetched bytes of a read change the memory. -/
theorem SendWr.scatter_eq {wr : SendWr} (opcode : wr.opcode ≠ .rdmaRead) (mem : ℕ → UInt8)
    (fetched : List UInt8) : wr.scatter mem fetched = mem := by
  unfold SendWr.scatter
  split
  next isRead _ => exact absurd isRead opcode
  next => rfl

namespace Node

variable {node node' : Node nprocs} {action : Action nprocs} {peer : Fin nprocs}

/-- An RDMA request for `peer` has not taken effect. -/
inductive Unsettled (node : Node nprocs) (peer : Fin nprocs) : Prop where
  | queued {posted : Posted} :
      posted ∈ node.sendQueue peer → posted.wr.opcode ≠ .send → Unsettled node peer
  | refused {executed : Executed} :
      executed ∈ node.executed peer → executed.done = false → Unsettled node peer
  | failed {wc : Wc} :
      wc ∈ node.unhandled → wc.isSendTo peer = true → wc.status ≠ .success → Unsettled node peer

/-- The process is in `YMPI_Zflush`, has ended in it, or has returned from it. -/
inductive Flushing (node : Node nprocs) : Prop where
  | inside : node.pc.inFlush = true → Flushing node
  | returned {ret : Int} : node.pc = .idle ret → node.ctx.pendingSendWr ≤ 0 → Flushing node

theorem Flushing.inFlush (flushing : node.Flushing) {pc : Pc nprocs} (located : node.pc = pc)
    (busy : ∀ ret, pc ≠ .idle ret) : pc.inFlush = true := by
  subst located
  cases flushing with
  | inside inside => exact inside
  | returned idle => exact absurd idle (busy _)

namespace Step

theorem mem_ledger (step : Step node action node') : node'.mem = action.memory node.mem := by
  cases step <;> rfl

theorem execute_queued {posted : Posted} {done : Bool} {fetched : List UInt8}
    (step : Step node (.execute peer posted done fetched) node') :
    posted ∈ node.sendQueue peer := by
  cases step with
  | execute _ _ listed =>
      rw [listed]
      exact List.mem_cons_self

/-- A request in a send queue was there before or has been accepted in the step. -/
theorem sendQueue_origin (step : Step node action node') {posted : Posted}
    (member : posted ∈ node'.sendQueue peer) :
    posted ∈ node.sendQueue peer ∨ posted ∈ node.accepted peer action := by
  rw [← List.mem_append, step.sendQueue_ledger peer]
  exact List.mem_append_right _ member

/-- The request of an accepted post is in the send queue. -/
theorem post_queued {call : PostCall nprocs} {data : List UInt8}
    (step : Step node (.post call .accepted data) node') :
    ⟨call.wr node.ctx, (call.wr node.ctx).gather node.mem⟩ ∈ node'.sendQueue call.dest := by
  have ledger := step.sendQueue_ledger call.dest
  simp only [accepted, if_true, Action.launched, List.nil_append] at ledger
  rw [← ledger]
  exact List.mem_append_right _ (List.mem_singleton_self _)

/-- The network accepts no requests. -/
theorem accepted_network (network : action.isNetwork = true) : node.accepted peer action = [] := by
  cases action with
  | post => cases network
  | _ => rfl

/-- An RDMA request leaves the send queue when it takes effect or is refused. -/
theorem queued_unsettled {posted : Posted} (step : Step node action node')
    (member : posted ∈ node.sendQueue peer) (opcode : posted.wr.opcode ≠ .send)
    (noEffect : ¬ action.Effects peer) : node'.Unsettled peer := by
  have before : posted ∈ action.launched peer ++ node'.sendQueue peer := by
    rw [← step.sendQueue_ledger peer]
    exact List.mem_append_left _ member
  rcases List.mem_append.mp before with launched | queued
  · cases step with
    | @execute target _ rest done fetched listed =>
        simp only [Action.launched, List.mem_ite_nil_right, List.mem_singleton] at launched
        obtain ⟨rfl, rfl⟩ := launched
        cases done with
        | true => exact absurd ⟨rfl, opcode⟩ noEffect
        | false =>
            refine .refused (show (⟨posted, false⟩ : Executed) ∈ _ from ?_) rfl
            simp only [Function.update_self]
            exact List.mem_append_right _ (List.mem_singleton_self _)
    | _ => cases launched
  · exact .queued queued opcode

/-- A refused request completes with an error. -/
theorem refused_unsettled {executed : Executed} (step : Step node action node')
    (formed : node.Formed) (member : executed ∈ node.executed peer)
    (undone : executed.done = false) : node'.Unsettled peer := by
  cases step with
  | @execute target posted rest done fetched listed =>
      refine .refused ?_ undone
      by_cases same : target = peer
      · subst same
        simp only [Function.update_self]
        exact List.mem_append_left _ member
      · simpa only [Function.update_of_ne (Ne.symm same)] using member
  | @complete target front back completed qpNum status listed paired signaled success =>
      by_cases same : target = peer
      · subst same
        rw [listed] at member
        rcases List.mem_append.mp member with first | rest
        · refine .refused ?_ undone
          simp only [Function.update_self]
          exact List.mem_append_left _ first
        · rcases List.mem_cons.mp rest with rfl | last
          · have addressed := formed.executed target executed (by rw [listed]; simp)
            refine .failed (List.mem_append_right _
              (List.mem_append_right _ (List.mem_singleton_self _))) ?_ ?_
            · simp [Wc.isSendTo, addressed.tag, addressed.id]
            · intro successful
              exact absurd ((success successful).symm.trans undone) Bool.noConfusion
          · refine .refused ?_ undone
            simp only [Function.update_self]
            exact List.mem_append_right _ last
      · refine .refused ?_ undone
        simpa only [Function.update_of_ne (Ne.symm same)] using member
  | _ => exact .refused member undone

/-- A failed completion is never handled. -/
theorem failed_unsettled {wc : Wc} (step : Step node action node') (member : wc ∈ node.unhandled)
    (isSend : wc.isSendTo peer = true) (status : wc.status ≠ .success) : node'.Unsettled peer := by
  have before : wc ∈ action.handled ++ node'.unhandled := by
    rw [← step.unhandled_ledger]
    exact List.mem_append_left _ member
  rcases List.mem_append.mp before with handled | waiting
  · cases action with
    | handle =>
        cases List.mem_singleton.mp handled
        exact absurd step.handled_success status
    | _ => cases handled
  · exact .failed waiting isSend status

/-- An RDMA request stays unsettled until it takes effect. -/
theorem unsettled (step : Step node action node') (formed : node.Formed)
    (unsettled : node.Unsettled peer) (noEffect : ¬ action.Effects peer) :
    node'.Unsettled peer := by
  cases unsettled with
  | queued member opcode => exact step.queued_unsettled member opcode noEffect
  | refused member undone => exact step.refused_unsettled formed member undone
  | failed member isSend status => exact step.failed_unsettled member isSend status

theorem zflush_flushing (step : Step node .zflush node') : node'.Flushing := by
  cases step with
  | zflush => exact .inside rfl

/-- A flush goes on or ends with no requests outstanding. -/
theorem flushing (step : Step node action node') (flushing : node.Flushing)
    (busy : action.isProcess = true → ∀ ret, node.pc ≠ .idle ret) : node'.Flushing := by
  cases step with
  | postAccepted idle | postRefused idle | zflush idle | zrecv _ idle | giveBack idle
  | store _ idle | register _ idle => exact absurd idle (busy rfl _)
  | throttleTest located | recvTest located | received located | repost located
  | repostFailed located | returned located => cases flushing.inFlush located nofun
  | flushTest => exact .inside rfl
  | flushEnd _ ended => exact .returned rfl (not_lt.mp ended)
  | halt => exact .inside rfl
  | @poll loop batch rest located =>
      have inside := flushing.inFlush located nofun
      cases loop with
      | flush => cases batch <;> exact .inside rfl
      | _ => cases inside
  | @pollError loop located =>
      have inside := flushing.inFlush located nofun
      cases loop with
      | flush => exact .inside rfl
      | _ => cases inside
  | @handle loop wc rest ctx located =>
      have inside := flushing.inFlush located nofun
      cases loop with
      | flush => cases rest <;> exact .inside rfl
      | _ => cases inside
  | execute | complete | arrive | land =>
      cases flushing with
      | inside inside => exact .inside inside
      | returned idle flushed => exact .returned idle flushed

end Step

/-- The memory of the application after an execution. -/
theorem execution_mem {labels : List (Action nprocs)}
    (execution : (system nprocs).Execution node labels node') :
    node'.mem = labels.foldl Action.memory node.mem := by
  induction execution with
  | refl => rfl
  | snoc _ step ih => rw [List.foldl_append, ← ih, List.foldl_cons, List.foldl_nil, step.mem_ledger]

theorem Unsettled.outstanding_pos (unsettled : node.Unsettled peer) :
    0 < node.outstanding peer := by
  unfold outstanding
  cases unsettled with
  | queued member =>
      have := List.length_pos_of_mem member
      omega
  | refused member =>
      have := List.length_pos_of_mem member
      omega
  | failed member isSend =>
      have := List.countP_pos_iff.mpr ⟨_, member, isSend⟩
      omega

/-- No request is outstanding when the counter of all requests is not positive. -/
theorem reaches_flushed {history : List (Action nprocs)}
    (reached : (system nprocs).Reaches history node) (flushed : node.ctx.pendingSendWr ≤ 0)
    (peer : Fin nprocs) : node.outstanding peer = 0 := by
  have counted := reaches_qpPending reached
  have nonneg : ∀ other ∈ Finset.univ, 0 ≤ node.ctx.qpPendingSendWr other := by
    intro other _
    rw [counted]
    exact Int.natCast_nonneg _
  have total := reaches_pendingTotal reached
  have member := Finset.single_le_sum nonneg (Finset.mem_univ peer)
  have own := counted peer
  omega

end Node

/-- What a step of a cluster may do to the memory of `rank`: its process stores to it, a
write lands in it, or a read of its own brings data. -/
inductive Label.MemoryEffect (rank : Fin nprocs) (mem : ℕ → UInt8) :
    Label nprocs → (ℕ → UInt8) → Prop where
  | same {label : Label nprocs} : MemoryEffect rank mem label mem
  | stored (stored : ℕ → UInt8) : MemoryEffect rank mem (.act rank (.store stored)) stored
  | landed {source : Fin nprocs} {posted : Posted} :
      MemoryEffect rank mem (.rdmaWrite source rank posted true)
        (writeBlock mem posted.wr.remoteAddr posted.data)
  | fetched {dest : Fin nprocs} {posted : Posted} {done : Bool} {fetched : List UInt8} :
      MemoryEffect rank mem (.rdmaRead rank dest posted done fetched)
        (posted.wr.scatter mem fetched)

namespace Cluster

variable {cluster cluster' : Cluster nprocs} {label : Label nprocs}

theorem Step.mem_ledger (step : Step cluster label cluster') (rank : Fin nprocs) :
    (cluster' rank).mem = (label.actionsOf rank).foldl Action.memory (cluster rank).mem :=
  Node.execution_mem (step.execution rank)

/-- An RDMA write takes effect, or fails to, when it is the oldest request to its peer. -/
theorem Step.rdmaWrite_queued {source dest : Fin nprocs} {posted : Posted} {done : Bool}
    (step : Step cluster (.rdmaWrite source dest posted done) cluster') :
    posted.wr.opcode = .rdmaWrite ∧ posted ∈ (cluster source).sendQueue dest := by
  cases step with
  | writeDone opcode _ sent => exact ⟨opcode, sent.execute_queued⟩
  | writeRefused opcode _ sent => exact ⟨opcode, sent.execute_queued⟩

/-- An RDMA read takes effect, or fails to, when it is the oldest request to its peer. -/
theorem Step.rdmaRead_queued {source dest : Fin nprocs} {posted : Posted} {done : Bool}
    {fetched : List UInt8}
    (step : Step cluster (.rdmaRead source dest posted done fetched) cluster') :
    posted.wr.opcode = .rdmaRead ∧ posted ∈ (cluster source).sendQueue dest := by
  cases step with
  | readDone opcode _ sent => exact ⟨opcode, sent.execute_queued⟩
  | readRefused opcode _ sent => exact ⟨opcode, sent.execute_queued⟩

/-- What a step of the cluster does to the memory of `rank`. -/
theorem Step.memory_effect (step : Step cluster label cluster') (rank : Fin nprocs) :
    label.MemoryEffect rank (cluster rank).mem (cluster' rank).mem := by
  have moved := step.mem_ledger rank
  rw [moved]
  cases step with
  | @act actor action _ own =>
      by_cases same : actor = rank
      · subst same
        simp only [Label.actionsOf, if_true, List.foldl_cons, List.foldl_nil]
        cases action with
        | store mem => exact .stored mem
        | execute | land => cases own
        | _ => exact .same
      · simp only [Label.actionsOf, if_neg same, List.foldl_nil]
        exact .same
  | @deliver source dest posted wr _ _ opcode =>
      have kept := @SendWr.scatter_eq posted.wr (by simp [opcode]) (cluster rank).mem []
      have same : ((Label.deliver source dest posted wr).actionsOf rank).foldl Action.memory
          (cluster rank).mem = (cluster rank).mem := by
        simp only [Label.actionsOf]
        split <;> split <;> simp [Action.memory, kept]
      rw [same]
      exact .same
  | @writeDone source dest posted _ _ opcode =>
      have kept := @SendWr.scatter_eq posted.wr (by simp [opcode]) (cluster rank).mem []
      by_cases here : dest = rank
      · subst here
        have landed : ((Label.rdmaWrite source dest posted true).actionsOf dest).foldl
            Action.memory (cluster dest).mem =
              writeBlock (cluster dest).mem posted.wr.remoteAddr posted.data := by
          simp only [Label.actionsOf]
          split <;> simp [Action.memory, kept]
        rw [landed]
        exact .landed
      · have same : ((Label.rdmaWrite source dest posted true).actionsOf rank).foldl
            Action.memory (cluster rank).mem = (cluster rank).mem := by
          simp only [Label.actionsOf]
          split <;> simp [Action.memory, kept, here]
        rw [same]
        exact .same
  | @writeRefused source dest posted _ opcode =>
      have kept := @SendWr.scatter_eq posted.wr (by simp [opcode]) (cluster rank).mem []
      have same : ((Label.rdmaWrite source dest posted false).actionsOf rank).foldl
          Action.memory (cluster rank).mem = (cluster rank).mem := by
        simp only [Label.actionsOf]
        split <;> simp [Action.memory, kept]
      rw [same]
      exact .same
  | @readDone source _ _ _ | @readRefused source =>
      by_cases own : source = rank
      · subst own
        simp only [Label.actionsOf, if_true, List.foldl_cons, List.foldl_nil]
        exact .fetched
      · simp only [Label.actionsOf, if_neg own, List.foldl_nil]
        exact .same

/-- The flush of a process goes on in a cluster. -/
theorem Step.flushing (step : Step cluster label cluster') {rank : Fin nprocs}
    (flushing : (cluster rank).Flushing)
    (busy : ∀ action, label = .act rank action → action.isProcess = true →
      ∀ ret, (cluster rank).pc ≠ .idle ret) : (cluster' rank).Flushing := by
  rcases step.node_cases rank with ⟨action, rfl, own⟩ | ⟨execution, network⟩
  · exact own.flushing flushing (busy action rfl)
  · refine execution.invariant ?_ flushing
    intro before action member after moved flushing
    apply moved.flushing flushing
    intro process
    rw [Action.isProcess_network (network action member)] at process
    cases process

/-- A request takes effect by an RDMA write or read of the network. -/
theorem Step.effects (step : Step cluster label cluster') {rank peer : Fin nprocs}
    {action : Action nprocs} (member : action ∈ label.actionsOf rank)
    (effects : action.Effects peer) :
    (∃ posted, label = .rdmaWrite rank peer posted true) ∨
      ∃ posted fetched, label = .rdmaRead rank peer posted true fetched := by
  cases step with
  | @act _ _ _ own =>
      simp only [Label.actionsOf, List.mem_ite_nil_right, List.mem_singleton] at member
      obtain ⟨-, rfl⟩ := member
      cases action with
      | execute => cases own
      | _ => cases effects
  | deliver opcode =>
      simp only [Label.actionsOf, List.mem_append, List.mem_ite_nil_right, List.mem_singleton]
        at member
      rcases member with ⟨-, rfl⟩ | ⟨-, rfl⟩
      · exact absurd opcode effects.2
      · cases effects
  | writeDone =>
      simp only [Label.actionsOf, List.mem_append, List.mem_ite_nil_right, List.mem_singleton]
        at member
      rcases member with ⟨rfl, rfl⟩ | ⟨-, rfl⟩
      · obtain ⟨rfl, -⟩ := effects
        exact Or.inl ⟨_, rfl⟩
      · cases effects
  | readDone =>
      simp only [Label.actionsOf, List.mem_ite_nil_right, List.mem_singleton] at member
      obtain ⟨rfl, rfl⟩ := member
      obtain ⟨rfl, -⟩ := effects
      exact Or.inr ⟨_, _, rfl⟩
  | writeRefused =>
      simp only [Label.actionsOf, List.mem_append, List.mem_ite_nil_right, List.mem_singleton]
        at member
      rcases member with ⟨-, rfl⟩ | ⟨⟨-, done⟩, -⟩
      · cases effects
      · cases done
  | readRefused =>
      simp only [Label.actionsOf, List.mem_ite_nil_right, List.mem_singleton] at member
      obtain ⟨-, rfl⟩ := member
      cases effects

/-- An RDMA request stays unsettled in a cluster until it takes effect. -/
theorem Step.unsettled {labels : List (Label nprocs)} {rank peer : Fin nprocs}
    (reached : (system nprocs).Reaches labels cluster) (step : Step cluster label cluster')
    (unsettled : (cluster rank).Unsettled peer)
    (noEffect : ∀ action ∈ label.actionsOf rank, ¬ action.Effects peer) :
    (cluster' rank).Unsettled peer := by
  have formed := Node.reaches_formed (reaches_node reached rank)
  rcases step.node_cases rank with ⟨action, rfl, own⟩ | ⟨execution, -⟩
  · exact own.unsettled formed unsettled (noEffect action (by simp [Label.actionsOf]))
  · have kept : (cluster' rank).Formed ∧ (cluster' rank).Unsettled peer := by
      refine execution.invariant
        (motive := fun node => node.Formed ∧ node.Unsettled peer) ?_ ⟨formed, unsettled⟩
      intro before action member after moved holds
      exact ⟨moved.formed holds.1, moved.unsettled holds.1 holds.2 (noEffect action member)⟩
    exact kept.2

/-- A request in a send queue was there before or has been accepted in the step. -/
theorem Step.sendQueue_origin (step : Step cluster label cluster') {rank peer : Fin nprocs}
    {posted : Posted} (member : posted ∈ (cluster' rank).sendQueue peer) :
    posted ∈ (cluster rank).sendQueue peer ∨
      ∃ action, label = .act rank action ∧ posted ∈ (cluster rank).accepted peer action := by
  rcases step.node_cases rank with ⟨action, rfl, own⟩ | ⟨execution, network⟩
  · rcases own.sendQueue_origin member with before | accepted
    · exact Or.inl before
    · exact Or.inr ⟨action, rfl, accepted⟩
  · apply Or.inl
    revert member
    refine execution.invariant (motive := fun node => posted ∈ node.sendQueue peer →
      posted ∈ (cluster rank).sendQueue peer) ?_ id
    intro before action listed after moved earlier member
    rcases moved.sendQueue_origin member with old | accepted
    · exact earlier old
    · rw [Node.Step.accepted_network (network action listed)] at accepted
      cases accepted

end Cluster

end Ympi.Messaging
