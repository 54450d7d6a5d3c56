import Mathlib.Data.List.Forall2
import Ympi.Messaging.BufferContents
import Ympi.Messaging.Runs

/-! # Delivery of messages

A message from one rank to another is in the send queue of its queue pair, then in a
receive buffer behind an unhandled completion, then in a pending buffer, and then
with the caller. Each of these stages is first in, first out for the messages of one
source, and the buffer keeps the message meanwhile, so `YMPI_Zrecv` returns the
messages of a source as they were sent.
-/

namespace Ympi.Messaging

open LinkedList Foundation

variable {nprocs : ℕ}

/-- A message with the length that goes with it. -/
structure Message where
  payload : List UInt8
  length : ℕ
  deriving DecidableEq, Repr

/-- The message that a send request carries. -/
def Posted.message (posted : Posted) : Message :=
  ⟨posted.data, posted.data.length⟩

/-- The messages of the send requests among those posted to a queue pair. -/
def messagesOf (queue : List Posted) : List Message :=
  (queue.filter fun posted => posted.wr.opcode = .send).map Posted.message

theorem messagesOf_append (front back : List Posted) :
    messagesOf (front ++ back) = messagesOf front ++ messagesOf back := by
  rw [messagesOf, List.filter_append, List.map_append]
  rfl

namespace Action

/-- The message that a call of `YMPI_Zsend` had accepted for `dest`. -/
def sentTo (dest : Fin nprocs) : Action nprocs → List Message
  | .post (.zsend _ _ bytes target) .accepted data => if target = dest then [⟨data, bytes⟩] else []
  | _ => []

/-- The message to `dest` that the HCA sent off. -/
def deliveredTo (dest : Fin nprocs) : Action nprocs → List Message
  | .execute target posted _ _ => if target = dest then messagesOf [posted] else []
  | _ => []

/-- The message that arrived from `source`. -/
def arrivedFrom (source : Fin nprocs) : Action nprocs → List Message
  | .arrive peer _ payload => if peer = source then [⟨payload, payload.length⟩] else []
  | _ => []

/-- The message that `YMPI_Zrecv` returned for `source`. -/
def receivedFrom (source : Fin nprocs) : Action nprocs → List Message
  | .received target result payload => if target = source then [⟨payload, result.len⟩] else []
  | _ => []

/-- The length of a message fits the `uint32_t` of a scatter/gather entry. No message
may be longer than `YMPI_VBUF_BYTES`. -/
def LengthFits : Action nprocs → Prop
  | .post (.zsend _ _ bytes _) .accepted _ => bytes < 2 ^ 32
  | _ => True

end Action

namespace Node

variable {node node' : Node nprocs} {action : Action nprocs}

namespace Step

theorem messagesOf_accepted (step : Step node action node') (fits : action.LengthFits)
    (dest : Fin nprocs) : messagesOf (node.accepted dest action) = action.sentTo dest := by
  cases step with
  | @postAccepted ret call ctx pc idle performed =>
      by_cases same : call.dest = dest
      · simp only [accepted, if_pos same]
        cases call with
        | zsend buffer offset bytes target =>
            have target' : target = dest := same
            have gathered : (node.ctx.zsendWr buffer offset bytes target).gather node.mem = _ :=
              SendWr.gather_sgList rfl fits node.mem
            change messagesOf [⟨node.ctx.zsendWr buffer offset bytes target, _⟩] =
              if target = dest then [⟨readBlock node.mem _ bytes, bytes⟩] else []
            rw [if_pos target', PostCall.wr, gathered]
            change [Message.mk _ (readBlock _ _ bytes).length] = _
            rw [length_readBlock]
            rfl
        | write => simp [messagesOf, Action.sentTo, PostCall.wr, Context.writeWr]
        | read => simp [messagesOf, Action.sentTo, PostCall.wr, Context.readWr]
      · simp only [accepted, if_neg same]
        cases call with
        | zsend buffer offset bytes target => exact (if_neg same).symm
        | write => rfl
        | read => rfl
  | @postRefused ret call outcome ctx pc idle refused performed =>
      cases outcome with
      | accepted => exact absurd rfl refused
      | failed err => cases call <;> rfl
      | badWr => cases call <;> rfl
  | _ => rfl

theorem messagesOf_launched (action : Action nprocs) (dest : Fin nprocs) :
    messagesOf (action.launched dest) = action.deliveredTo dest := by
  cases action with
  | execute target posted done fetched =>
      simp only [Action.launched, Action.deliveredTo]
      split <;> rfl
  | _ => rfl

/-- **Sending.** Messages leave a send queue in the order in which they were posted. -/
theorem sent_ledger (step : Step node action node') (fits : action.LengthFits)
    (dest : Fin nprocs) :
    messagesOf (node.sendQueue dest) ++ action.sentTo dest =
      action.deliveredTo dest ++ messagesOf (node'.sendQueue dest) := by
  rw [← step.messagesOf_accepted fits dest, ← messagesOf_launched, ← messagesOf_append,
    step.sendQueue_ledger, messagesOf_append]

end Step

/-- The messages sent have been sent off or are in the send queue. -/
theorem reaches_sent {history : List (Action nprocs)}
    (reached : (system nprocs).Reaches history node)
    (fits : ∀ action ∈ history, action.LengthFits) (dest : Fin nprocs) :
    history.flatMap (Action.sentTo dest) =
      history.flatMap (Action.deliveredTo dest) ++ messagesOf (node.sendQueue dest) := by
  revert fits
  refine reached.induction (motive := fun history node =>
    (∀ action ∈ history, action.LengthFits) → history.flatMap (Action.sentTo dest) =
      history.flatMap (Action.deliveredTo dest) ++ messagesOf (node.sendQueue dest)) ?_ ?_
  · intro start initial _
    rw [initial.sendQueue_eq]
    rfl
  · intro labels before action after earlier balance step fits
    have moved := step.sent_ledger (fits action (by simp)) dest
    rw [List.flatMap_append, List.flatMap_append, List.flatMap_singleton, List.flatMap_singleton,
      balance fun action member => fits action (List.mem_append_left _ member), List.append_assoc,
      moved, List.append_assoc]

/-- The message in a pending buffer. -/
def messageIn (node : Node nprocs) (id : Int) : Message :=
  ⟨node.bytesOf id.toNat (node.ctx.rxWin.bufBytes id.toNat), node.ctx.rxWin.bufBytes id.toNat⟩

/-- The buffer of a successful receive completion holds `message`. -/
def Holds (node : Node nprocs) (wc : Wc) (message : Message) : Prop :=
  wc.status = .success →
    wc.byteLen ≤ vbufBytes ∧ message = ⟨node.bytesOf wc.wrId.id wc.byteLen, wc.byteLen⟩

/-- The unhandled completions of messages from `source`. -/
def unhandledFrom (node : Node nprocs) (source : Fin nprocs) : List Wc :=
  node.unhandled.filter fun wc => node.isFrom source wc

/-- The messages that arrived from `source` have been received, are in its pending
buffers, or wait behind unhandled completions; in this order. -/
structure Delivers (history : List (Action nprocs)) (node : Node nprocs)
    (source : Fin nprocs) (waiting : List Message) : Prop where
  order : history.flatMap (Action.arrivedFrom source) =
    history.flatMap (Action.receivedFrom source) ++
      ((node.pending source).map node.messageIn ++ waiting)
  waits : List.Forall₂ node.Holds (node.unhandledFrom source) waiting
  inside : ∀ id ∈ node.pending source, node.ctx.rxWin.bufBytes id.toNat ≤ vbufBytes

namespace Step

theorem isFrom_iff (step : Step node action node') (source : Fin nprocs) (wc : Wc) :
    node'.isFrom source wc ↔ node.isFrom source wc := by
  rw [isFrom, isFrom, step.qps_eq]

/-- The completions of the messages of one source are handled in order. -/
theorem unhandledFrom_ledger (step : Step node action node') (source : Fin nprocs) :
    node.unhandledFrom source ++ (node.produced action).filter (fun wc => node.isFrom source wc) =
      action.handled.filter (fun wc => node.isFrom source wc) ++ node'.unhandledFrom source := by
  have same : (fun wc => decide (node'.isFrom source wc)) =
      fun wc => decide (node.isFrom source wc) := by
    funext wc
    exact decide_eq_decide.mpr (step.isFrom_iff source wc)
  rw [unhandledFrom, unhandledFrom, same, ← List.filter_append, ← List.filter_append,
    step.unhandled_ledger]

/-- A step keeps the message behind an unhandled completion. -/
theorem holds_kept {history : List (Action nprocs)}
    (reached : (system nprocs).Reaches history node) (step : Step node action node') {wc : Wc}
    {message : Message} (member : wc ∈ node.unhandled) (isRecv : wc.isRecv = true)
    (holds : node.Holds wc message) : node'.Holds wc message := by
  intro successful
  obtain ⟨inside, rfl⟩ := holds successful
  have located : (wc.wrId.id : Int) ∈ node.idsAt .completion :=
    List.mem_map.mpr ⟨wc, List.mem_filter.mpr ⟨member, isRecv⟩, rfl⟩
  have kept := step.bytes_kept (reaches_formed reached) (reaches_occurrences_le reached _) located
    (by simp) inside
  exact ⟨inside, by rw [kept]⟩

/-- A step keeps the message in a pending buffer. -/
theorem messageIn_kept {history : List (Action nprocs)}
    (reached : (system nprocs).Reaches history node) (step : Step node action node') {id : Int}
    {source : Fin nprocs} (member : id ∈ node.pending source)
    (inside : node.ctx.rxWin.bufBytes id.toNat ≤ vbufBytes) :
    node'.messageIn id = node.messageIn id ∧
      node'.ctx.rxWin.bufBytes id.toNat ≤ vbufBytes := by
  have named := Int.toNat_of_nonneg ((reaches_proper reached).pending source id member)
  have located : (id.toNat : Int) ∈ node.idsAt (.pending source) := by
    rw [named]
    exact member
  have single := reaches_occurrences_le reached (id.toNat : Int)
  have length := step.bufBytes_kept single located (by simp)
  have bytes := step.bytes_kept (reaches_formed reached) single located (by simp) inside
  refine ⟨?_, by omega⟩
  rw [messageIn, messageIn, length, bytes]

/-- A step keeps the messages that wait and those that are pending. -/
theorem delivers_kept {history : List (Action nprocs)} {source : Fin nprocs}
    {waiting : List Message} (reached : (system nprocs).Reaches history node)
    (step : Step node action node') (delivers : Delivers history node source waiting) :
    (node.pending source).map node'.messageIn = (node.pending source).map node.messageIn ∧
      List.Forall₂ node'.Holds (node.unhandledFrom source) waiting ∧
      ∀ id ∈ node.pending source, node'.ctx.rxWin.bufBytes id.toNat ≤ vbufBytes := by
  refine ⟨?_, ?_, ?_⟩
  · apply List.map_congr_left
    intro id member
    exact (step.messageIn_kept reached member (delivers.inside id member)).1
  · have origin : ∀ wc ∈ node.unhandledFrom source,
        wc ∈ node.unhandled ∧ wc.isRecv = true := by
      intro wc member
      obtain ⟨listed, isFrom⟩ := List.mem_filter.mp member
      exact ⟨listed, (of_decide_eq_true isFrom).1⟩
    refine List.Forall₂.imp ?_ ((List.forall₂_and_left _ _).mpr ⟨origin, delivers.waits⟩)
    rintro wc message ⟨⟨listed, isRecv⟩, holds⟩
    exact step.holds_kept reached listed isRecv holds
  · intro id member
    exact (step.messageIn_kept reached member (delivers.inside id member)).2

/-- A step that moves no message of the source keeps them all. -/
theorem delivers_quiet {history : List (Action nprocs)} {source : Fin nprocs}
    {waiting : List Message} (reached : (system nprocs).Reaches history node)
    (step : Step node action node') (delivers : Delivers history node source waiting)
    (arrived : action.arrivedFrom source = []) (received : action.receivedFrom source = [])
    (pending : node'.pending source = node.pending source)
    (unhandled : node'.unhandledFrom source = node.unhandledFrom source) :
    Delivers (history ++ [action]) node' source waiting := by
  obtain ⟨messages, waits, inside⟩ := step.delivers_kept reached delivers
  refine ⟨?_, ?_, ?_⟩
  · rw [List.flatMap_append, List.flatMap_append, List.flatMap_singleton, List.flatMap_singleton,
      arrived, received, List.append_nil, List.append_nil, pending, messages]
    exact delivers.order
  · rw [unhandled]
    exact waits
  · rw [pending]
    exact inside

/-- A handled completion of a message queues the buffer of the message. -/
theorem delivers_handle {history : List (Action nprocs)} {source : Fin nprocs}
    {waiting : List Message} {wc : Wc} (reached : (system nprocs).Reaches history node)
    (step : Step node (.handle wc) node') (delivers : Delivers history node source waiting)
    (isFrom : node.isFrom source wc) :
    ∃ rest, Delivers (history ++ [.handle wc]) node' source rest := by
  obtain ⟨messages, waits, inside⟩ := step.delivers_kept reached delivers
  have first := step.unhandledFrom_ledger source
  have queued := step.pending_ledger (reaches_proper reached) source
  simp only [produced, List.filter_nil, List.append_nil, Action.handled, List.filter_cons,
    decide_eq_true isFrom, if_true] at first
  simp only [queuedFor, if_pos isFrom, Action.handedOut, List.nil_append] at queued
  rw [first] at waits
  cases waits with
  | @cons _ message _ rest holds others =>
      obtain ⟨fits, named⟩ := holds step.handled_success
      have recorded : node'.ctx.rxWin.bufBytes wc.wrId.id = wc.byteLen := by
        rw [step.contents_ledger.2]
        simp only [Action.recordedIn, isFrom.1, if_true]
        exact Function.update_self ..
      have stored : node'.messageIn (wc.wrId.id : Int) = message := by
        rw [messageIn, Int.toNat_natCast, recorded, named]
      refine ⟨rest, ?_, others, ?_⟩
      · rw [List.flatMap_append, List.flatMap_append, List.flatMap_singleton,
          List.flatMap_singleton, delivers.order, ← queued, List.map_append, messages,
          List.map_singleton, stored]
        simp [Action.arrivedFrom, Action.receivedFrom]
      · intro id member
        rw [← queued] at member
        rcases List.mem_append.mp member with old | new
        · exact inside id old
        · rw [List.mem_singleton.mp new, Int.toNat_natCast, recorded]
          exact fits

/-- `YMPI_Zrecv` returns the message of the oldest pending buffer. -/
theorem delivers_received {history : List (Action nprocs)} {source : Fin nprocs}
    {waiting : List Message} {result : Received} {payload : List UInt8}
    (reached : (system nprocs).Reaches history node)
    (step : Step node (.received source result payload) node')
    (delivers : Delivers history node source waiting) :
    Delivers (history ++ [.received source result payload]) node' source waiting := by
  obtain ⟨messages, waits, inside⟩ := step.delivers_kept reached delivers
  have unhandled := step.unhandledFrom_ledger source
  have taken := step.pending_ledger (reaches_proper reached) source
  simp only [produced, List.filter_nil, List.append_nil, Action.handled,
    List.nil_append] at unhandled
  simp only [queuedFor, List.append_nil, Action.handedOut, if_true, List.singleton_append] at taken
  have returned : (⟨payload, result.len⟩ : Message) = node.messageIn result.bufId := by
    cases step with
    | received atHead performed =>
        obtain ⟨queue, fetched, -, -, rfl, located, recorded⟩ := Context.recvHead_some performed
        rw [messageIn, bytesOf, ← recorded, ← located]
        rfl
  refine ⟨?_, ?_, ?_⟩
  · rw [List.flatMap_append, List.flatMap_append, List.flatMap_singleton, List.flatMap_singleton,
      delivers.order, ← messages, taken, List.map_cons]
    rw [taken, List.map_cons, List.map_cons] at messages
    simp [Action.arrivedFrom, Action.receivedFrom, returned, (List.cons.inj messages).1]
  · rw [← unhandled]
    exact waits
  · intro id member
    exact inside id (by rw [taken]; exact List.mem_cons_of_mem _ member)

/-- The completion of a message belongs to its source only. -/
theorem recvWc_isFrom_iff {history : List (Action nprocs)} {peer : Fin nprocs} {wr : RecvWr}
    {qpNum : ℕ} (payload : List UInt8) (reached : (system nprocs).Reaches history node)
    (posted : wr ∈ node.srq) (paired : node.ctx.qps.qpList peer = some qpNum)
    (source : Fin nprocs) : node.isFrom source (recvWc wr qpNum payload) ↔ peer = source := by
  have ranked := node.ctx.qps.rank_eq peer qpNum paired
  have tag := ((reaches_formed reached).srq wr posted).tag
  refine ⟨?_, ?_⟩
  · rintro ⟨-, named⟩
    have equal := Except.ok.inj (ranked.symm.trans named)
    exact Fin.ext (by omega)
  · rintro rfl
    exact ⟨by simp [Wc.isRecv, recvWc, tag], ranked⟩

/-- A message from the source waits behind the completion that it produces. -/
theorem delivers_arrive {history : List (Action nprocs)} {source : Fin nprocs}
    {waiting : List Message} {wr : RecvWr} {payload : List UInt8}
    (reached : (system nprocs).Reaches history node)
    (step : Step node (.arrive source wr payload) node')
    (delivers : Delivers history node source waiting) :
    Delivers (history ++ [.arrive source wr payload]) node' source
      (waiting ++ [⟨payload, payload.length⟩]) := by
  obtain ⟨messages, waits, inside⟩ := step.delivers_kept reached delivers
  have listed := step.consumed_srq List.mem_cons_self
  have whole := (reaches_formed reached).srq wr listed
  have written := step.contents_ledger.1
  have produced := step.unhandledFrom_ledger source
  have pending := step.pending_ledger (reaches_proper reached) source
  simp only [queuedFor, List.append_nil, Action.handedOut, List.nil_append] at pending
  cases step with
  | @arrive _ front back _ qpNum _ split paired =>
      have isFrom := (recvWc_isFrom_iff payload reached listed paired source).mpr rfl
      simp only [Node.produced, paired, Option.toList_some, List.map_singleton, List.filter_cons,
        decide_eq_true isFrom, if_true, List.filter_nil, Action.handled, List.nil_append]
        at produced
      refine ⟨?_, ?_, ?_⟩
      · rw [List.flatMap_append, List.flatMap_append, List.flatMap_singleton,
          List.flatMap_singleton, delivers.order, ← pending, messages]
        simp [Action.arrivedFrom, Action.receivedFrom]
      · rw [← produced]
        refine List.rel_append waits (.cons ?_ .nil)
        intro successful
        have fits : payload.length ≤ wr.sge.length := by
          by_contra longer
          simp only [recvWc, if_neg longer] at successful
          cases successful
        refine ⟨by rw [← whole.length]; exact fits, ?_⟩
        rw [bytesOf, written, Action.writtenTo, List.take_of_length_le fits, whole.addr]
        change _ = Message.mk (readBlock (writeBlock _ (wr.wrId.id * vbufBytes) payload)
          (wr.wrId.id * vbufBytes) payload.length) payload.length
        rw [readBlock_writeBlock_self]
      · intro id member
        exact inside id (by rw [pending]; exact member)

/-- Every step keeps the order of the messages from the source. -/
theorem delivers {history : List (Action nprocs)} {source : Fin nprocs}
    {waiting : List Message} (reached : (system nprocs).Reaches history node)
    (step : Step node action node') (delivers : Delivers history node source waiting) :
    ∃ rest, Delivers (history ++ [action]) node' source rest := by
  have pending := step.pending_ledger (reaches_proper reached) source
  have unhandled := step.unhandledFrom_ledger source
  cases action with
  | arrive peer wr payload =>
      by_cases same : peer = source
      · subst same
        exact ⟨_, step.delivers_arrive reached delivers⟩
      · have none : (node.produced (.arrive peer wr payload)).filter
            (fun wc => node.isFrom source wc) = [] := by
          have listed := step.consumed_srq List.mem_cons_self
          rw [List.filter_eq_nil_iff]
          intro wc member isFrom
          obtain ⟨qpNum, paired, rfl⟩ := List.mem_map.mp member
          exact same ((recvWc_isFrom_iff _ reached listed (Option.mem_toList.mp paired) source).mp
            (of_decide_eq_true isFrom))
        rw [none, List.append_nil] at unhandled
        simp only [queuedFor, List.append_nil, Action.handedOut, List.nil_append] at pending
        refine ⟨_, step.delivers_quiet reached delivers (if_neg same) rfl pending.symm ?_⟩
        exact unhandled.symm
  | complete peer executed status =>
      have none : (node.produced (.complete peer executed status)).filter
          (fun wc => node.isFrom source wc) = [] := by
        rw [List.filter_eq_nil_iff]
        intro wc member isFrom
        obtain ⟨qpNum, paired, rfl⟩ := List.mem_map.mp member
        cases step with
        | complete _ split =>
            have addressed := (reaches_formed reached).executed peer executed
              (by rw [split]; exact List.mem_append_right _ List.mem_cons_self)
            exact addressed.tag (of_decide_eq_true (of_decide_eq_true isFrom).1)
      rw [none, List.append_nil] at unhandled
      simp only [queuedFor, List.append_nil, Action.handedOut, List.nil_append] at pending
      exact ⟨_, step.delivers_quiet reached delivers rfl rfl pending.symm unhandled.symm⟩
  | handle wc =>
      by_cases isFrom : node.isFrom source wc
      · exact step.delivers_handle reached delivers isFrom
      · simp only [produced, List.filter_nil, List.append_nil, Action.handled, List.filter_cons,
          decide_eq_false isFrom, Bool.false_eq_true, if_false, List.nil_append] at unhandled
        simp only [queuedFor, if_neg isFrom, List.append_nil, Action.handedOut,
          List.nil_append] at pending
        exact ⟨_, step.delivers_quiet reached delivers rfl rfl pending.symm unhandled.symm⟩
  | received peer result payload =>
      by_cases same : peer = source
      · subst same
        exact ⟨_, step.delivers_received reached delivers⟩
      · simp only [produced, List.filter_nil, List.append_nil, Action.handled,
          List.nil_append] at unhandled
        simp only [queuedFor, List.append_nil, Action.handedOut, if_neg same,
          List.nil_append] at pending
        exact ⟨_, step.delivers_quiet reached delivers rfl (if_neg same) pending.symm
          unhandled.symm⟩
  | _ =>
      simp only [produced, List.filter_nil, List.append_nil, Action.handled,
        List.nil_append] at unhandled
      simp only [queuedFor, List.append_nil, Action.handedOut, List.nil_append] at pending
      exact ⟨_, step.delivers_quiet reached delivers rfl rfl pending.symm unhandled.symm⟩

end Step

/-- **Receiving.** The messages that arrived from a source have been received, in
their order, or are waiting in the node. -/
theorem reaches_delivers {history : List (Action nprocs)}
    (reached : (system nprocs).Reaches history node) (source : Fin nprocs) :
    ∃ waiting, Delivers history node source waiting := by
  refine reached.induction (motive := fun history node =>
    ∃ waiting, Delivers history node source waiting) ?_ ?_
  · intro start initial
    have quiet : start.unhandledFrom source = [] := by
      rw [unhandledFrom, initial.unhandled_eq]
      rfl
    refine ⟨[], ?_, ?_, ?_⟩
    · simp [initial.fresh.pending]
    · rw [quiet]
      exact .nil
    · simp [initial.fresh.pending]
  · intro labels before action after earlier hypothesis step
    obtain ⟨waiting, delivers⟩ := hypothesis
    exact step.delivers earlier delivers

end Node

namespace Cluster

private theorem flatMap_ite {α β : Type} (f : α → List β) (condition : Prop)
    [Decidable condition] (entry : α) :
    (if condition then [entry] else []).flatMap f = if condition then f entry else [] := by
  split <;> simp

section Rdma

variable {origin target : Fin nprocs} {posted : Posted} {done : Bool} {fetched : List UInt8}

private theorem messagesOf_rdma (opcode : posted.wr.opcode ≠ .send) : messagesOf [posted] = [] := by
  simp [messagesOf, opcode]

/-- An RDMA write delivers no message. -/
private theorem rdmaWrite_delivers (opcode : posted.wr.opcode ≠ .send) (source dest : Fin nprocs) :
    ((Label.rdmaWrite origin target posted done).actionsOf source).flatMap
        (Action.deliveredTo dest) =
      ((Label.rdmaWrite origin target posted done).actionsOf dest).flatMap
        (Action.arrivedFrom source) := by
  simp [Label.actionsOf, flatMap_ite, Action.deliveredTo, Action.arrivedFrom,
    messagesOf_rdma opcode]

/-- An RDMA read delivers no message. -/
private theorem rdmaRead_delivers (opcode : posted.wr.opcode ≠ .send) (source dest : Fin nprocs) :
    ((Label.rdmaRead origin target posted done fetched).actionsOf source).flatMap
        (Action.deliveredTo dest) =
      ((Label.rdmaRead origin target posted done fetched).actionsOf dest).flatMap
        (Action.arrivedFrom source) := by
  simp [Label.actionsOf, flatMap_ite, Action.deliveredTo, Action.arrivedFrom,
    messagesOf_rdma opcode]

end Rdma

/-- **The network.** The messages that a rank sent off to another arrived there. -/
theorem delivered_arrived {labels : List (Label nprocs)} {cluster : Cluster nprocs}
    (reached : (system nprocs).Reaches labels cluster) (source dest : Fin nprocs) :
    (nodeHistory source labels).flatMap (Action.deliveredTo dest) =
      (nodeHistory dest labels).flatMap (Action.arrivedFrom source) := by
  refine reached.induction (motive := fun labels _ =>
    (nodeHistory source labels).flatMap (Action.deliveredTo dest) =
      (nodeHistory dest labels).flatMap (Action.arrivedFrom source)) (fun _ _ => rfl) ?_
  intro labels before label after _ same step
  have moved : (label.actionsOf source).flatMap (Action.deliveredTo dest) =
      (label.actionsOf dest).flatMap (Action.arrivedFrom source) := by
    cases step with
    | @act rank action _ own =>
        have sent : action.deliveredTo dest = [] := by
          cases action with
          | execute => cases own
          | _ => rfl
        have arrived : action.arrivedFrom source = [] := by
          cases action with
          | arrive => cases own
          | _ => rfl
        simp only [Label.actionsOf, flatMap_ite, sent, arrived, ite_self]
    | @deliver origin target posted wr _ _ opcode =>
        have carried : messagesOf [posted] = [⟨posted.data, posted.data.length⟩] := by
          simp [messagesOf, opcode, Posted.message]
        by_cases from' : origin = source <;> by_cases to' : target = dest <;>
          simp [Label.actionsOf, flatMap_ite, Action.deliveredTo, Action.arrivedFrom, from', to',
            carried]
    | writeDone opcode => exact rdmaWrite_delivers (by simp [opcode]) source dest
    | writeRefused opcode => exact rdmaWrite_delivers (by simp [opcode]) source dest
    | readDone opcode => exact rdmaRead_delivers (by simp [opcode]) source dest
    | readRefused opcode => exact rdmaRead_delivers (by simp [opcode]) source dest
  simp only [nodeHistory, List.flatMap_append, List.flatMap_singleton] at same ⊢
  rw [same, moved]

/-- **First in, first out.** `YMPI_Zrecv` has returned for a source the first of the
messages that the source sent, in the order in which it sent them. When none of the
others is still in a queue, it has returned all of them. -/
theorem received_prefix_of_sent {labels : List (Label nprocs)} {cluster : Cluster nprocs}
    (reached : (system nprocs).Reaches labels cluster) (source dest : Fin nprocs)
    (fits : ∀ action ∈ nodeHistory source labels, action.LengthFits) :
    (nodeHistory dest labels).flatMap (Action.receivedFrom source) <+:
        (nodeHistory source labels).flatMap (Action.sentTo dest) ∧
      (messagesOf ((cluster source).sendQueue dest) = [] →
        (cluster dest).unhandledFrom source = [] → (cluster dest).pending source = [] →
        (nodeHistory dest labels).flatMap (Action.receivedFrom source) =
          (nodeHistory source labels).flatMap (Action.sentTo dest)) := by
  have sent := Node.reaches_sent (reaches_node reached source) fits dest
  obtain ⟨waiting, delivers⟩ := Node.reaches_delivers (reaches_node reached dest) source
  rw [delivered_arrived reached source dest, delivers.order, List.append_assoc] at sent
  refine ⟨⟨_, sent.symm⟩, ?_⟩
  intro unsent unhandled pending
  have handled := delivers.waits
  rw [unhandled] at handled
  cases handled
  rw [sent, unsent, pending]
  simp

/-- Rank 0 of two sends two messages to rank 1, which receives them. -/
theorem received_prefix_of_sent_two : ∃ (labels : List (Label 2)) (cluster : Cluster 2),
    (system 2).Reaches labels cluster ∧
      (∀ action ∈ nodeHistory 0 labels, action.LengthFits) ∧
      (nodeHistory 0 labels).flatMap (Action.sentTo 1) = [⟨[1, 2], 2⟩, ⟨[3], 1⟩] ∧
      (nodeHistory 1 labels).flatMap (Action.receivedFrom 0) = [⟨[1, 2], 2⟩, ⟨[3], 1⟩] := by
  obtain ⟨front, cluster, reached, returning, started⟩ := exists_started_with
    (fun _ : Fin 2 => QpTable.direct 2 (by decide)) (fun _ address => UInt8.ofNat address) fun _ => []
  obtain ⟨ready, tables, -, -⟩ := started 1
  obtain ⟨ready', tables', mem, -⟩ := started 0
  have present : (cluster 0).ctx.qps.qpList 1 ≠ none := by
    rw [tables']
    exact Option.some_ne_none _
  have paired : (cluster 1).ctx.qps.qpList 0 = some 0 := by
    rw [tables]
    rfl
  let wr (id : ℕ) : RecvWr := (cluster 1).ctx.recvRequest id
  let others : List RecvWr := (List.range' 2 254).map wr
  have stock : (cluster 1).srq = wr 0 :: wr 1 :: others := by
    rw [ready.srq_eq, List.range_eq_range', prepostDepth, List.map_map]
    rfl
  let buffer : RdmaBuffer := ⟨0, 8, ⟨0, 8, 0, 0, false, false⟩⟩
  have apart : (0 : Fin 2) ≠ 1 := by decide
  -- The messages arrive at rank 1.
  obtain ⟨sender, sent, counted, emptied, stays, idle⟩ := message_run apart ready'.pc_eq present
    (ready'.sendQueue_eq 1) paired stock (show Context.inBounds buffer 1 2 by decide) rfl
  rw [ready'.qpPending_eq, if_neg (by decide)] at idle
  have first : ((cluster 0).ctx.zsendWr buffer 1 2 1).gather (cluster 0).mem = [1, 2] := by
    rw [mem]
    rfl
  have named : readBlock (cluster 0).mem (sizeT (buffer.buf + 1)) 2 = [1, 2] := by
    rw [mem]
    rfl
  simp only [first, named] at sent
  let receiver : Node 2 := { cluster 1 with
    ctx := { (cluster 1).ctx with rxWin := { (cluster 1).ctx.rxWin with
      buf := writeBlock (cluster 1).ctx.rxWin.buf (wr 0).sge.addr
        (([1, 2] : List UInt8).take (wr 0).sge.length) } }
    srq := wr 1 :: others
    cq := (cluster 1).cq ++ [recvWc (wr 0) 0 [1, 2]] }
  let between : Cluster 2 := Function.update (Function.update cluster 0 sender) 1 receiver
  have atSender : between 0 = sender := by
    rw [show between 0 = _ from Function.update_of_ne apart .., Function.update_self]
  have atReceiver : between 1 = receiver := Function.update_self ..
  obtain ⟨sender', sent', -, emptied', -, -⟩ := @message_run _ between 0 1 apart 0
    (by rw [atSender]; exact idle) (by rw [atSender, counted]; exact present)
    (by rw [atSender]; exact emptied) 0 (by rw [atReceiver]; exact paired) (wr 1) others
    (by rw [atReceiver]) buffer 3 1 (by decide) _ rfl
  have second : ((between 0).ctx.zsendWr buffer 3 1 1).gather (between 0).mem = [3] := by
    rw [atSender, stays, mem]
    rfl
  have named' : readBlock (between 0).mem (sizeT (buffer.buf + 3)) 1 = [3] := by
    rw [atSender, stays, mem]
    rfl
  simp only [second, named', atReceiver] at sent'
  let arrived : Node 2 := { receiver with
    ctx := { receiver.ctx with rxWin := { receiver.ctx.rxWin with
      buf := writeBlock receiver.ctx.rxWin.buf (wr 1).sge.addr
        (([3] : List UInt8).take (wr 1).sge.length) } }
    srq := others
    cq := receiver.cq ++ [recvWc (wr 1) 0 [3]] }
  -- Rank 1 receives them.
  have fitted (id : ℕ) (payload : List UInt8) (short : payload.length ≤ vbufBytes) :
      (recvWc (wr id) 0 payload).status = .success := if_pos short
  have completions : arrived.cq = recvWc (wr 0) 0 [1, 2] :: [recvWc (wr 1) 0 [3]] := by
    simp [arrived, receiver, ready.cq_eq]
  obtain ⟨ctx, result, payload, run, fetched, pending, qps⟩ := @Node.zrecv_run _ arrived 0 _ _ 0
    ready.pc_eq (ready.pending_eq 0) completions (fitted 0 [1, 2] (by decide))
    ⟨rfl, arrived.ctx.qps.rank_eq 0 0 paired⟩ (by
      change (cluster 1).fetchedIds.length < _
      rw [ready.fetched_eq]
      decide)
  let holding : Node 2 := { arrived with
    ctx := ctx
    pc := .idle 0
    cq := [recvWc (wr 1) 0 [3]] }
  have nothing : holding.pending 0 = [] := (pending 0).trans (ready.pending_eq 0)
  obtain ⟨ctx', result', payload', run', -, pending', -⟩ := @Node.zrecv_run _ holding 0
    (recvWc (wr 1) 0 [3]) [] 0 rfl nothing rfl (fitted 1 [3] (by decide))
    ⟨rfl, holding.ctx.qps.rank_eq 0 0 (by
      change ctx.qps.qpList 0 = _
      rw [qps]
      exact paired)⟩ (by
      change ctx.rxWin.vbufFetched.contents.length < _
      rw [fetched]
      change ((cluster 1).fetchedIds ++ [_]).length < _
      rw [ready.fetched_eq]
      exact (by decide : 1 < prepostDepth))
  have returned := execution_update (Function.update between 0 sender') 1 (run.append run') (by
    intro action member
    simp only [List.cons_append, List.nil_append, List.mem_cons, List.not_mem_nil, or_false]
      at member
    rcases member with rfl | rfl | rfl | rfl | rfl | rfl | rfl | rfl | rfl | rfl <;> rfl)
  have history := ((reached.append sent).append sent').append returned
  have started (action : Action 2) (member : action ∈ nodeHistory 0 front) :
      action.isReturn = true := by
    obtain ⟨label, listed, taken⟩ := List.mem_flatMap.mp member
    have own := returning label listed
    cases label with
    | act rank step =>
        simp only [Label.actionsOf, List.mem_ite_nil_right, List.mem_singleton] at taken
        obtain ⟨-, rfl⟩ := taken
        exact own
    | _ => cases own
  have silent : (nodeHistory 0 front).flatMap (Action.sentTo 1) = [] := by
    rw [List.flatMap_eq_nil_iff]
    intro action member
    have returns := started action member
    cases action with
    | post => cases returns
    | _ => rfl
  have posting {offset bytes : ℕ} {data : List UInt8} {posted : Posted} {wr' : RecvWr}
      (short : bytes < 2 ^ 32) (action : Action 2)
      (member : action ∈ [Label.act 0 (.post (.zsend buffer offset bytes 1) .accepted data),
        .deliver 0 1 posted wr'].flatMap (Label.actionsOf 0)) : action.LengthFits := by
    simp only [Label.actionsOf, List.flatMap_cons, List.flatMap_nil, if_true, List.append_nil,
      if_neg apart.symm, List.mem_cons, List.not_mem_nil, or_false, List.singleton_append] at member
    rcases member with rfl | rfl
    · exact short
    · trivial
  refine ⟨_, _, history, ?fits, ?sent, ((received_prefix_of_sent history 0 1 ?fits).2 ?unsent
    ?unhandled ?pending).trans ?sent⟩
  case fits =>
    intro action member
    simp only [nodeHistory, List.flatMap_append, List.mem_append] at member
    rcases member with ((early | first) | second) | received
    · have returns := started action early
      cases action with
      | post => cases returns
      | _ => trivial
    · exact posting (by decide) action first
    · exact posting (by decide) action second
    · simp [Label.actionsOf] at received
  case sent =>
    rw [nodeHistory] at silent
    simp only [nodeHistory, List.flatMap_append, silent]
    simp [Label.actionsOf, Action.sentTo]
  case unsent =>
    rw [Function.update_of_ne apart, Function.update_self, emptied']
    rfl
  case unhandled =>
    rw [Function.update_self]
    rfl
  case pending =>
    rw [Function.update_self]
    exact (pending' 0).trans nothing

end Cluster

end Ympi.Messaging
