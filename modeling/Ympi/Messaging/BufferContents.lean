import Ympi.Messaging.BufferConservation

/-! # The contents of receive buffers

Only an arriving message writes to the receive buffers, into the one buffer that it
consumes, and only a handled receive completion records a length, that of its own
buffer. A buffer that is anywhere else keeps its contents.
-/

namespace Ympi.Messaging

open LinkedList Foundation

variable {nprocs : ℕ}

namespace Action

/-- The receive region after the step. -/
def writtenTo (buf : ℕ → UInt8) : Action nprocs → ℕ → UInt8
  | .arrive _ wr payload => writeBlock buf wr.sge.addr (payload.take wr.sge.length)
  | _ => buf

/-- The recorded lengths after the step. -/
def recordedIn (bufBytes : ℕ → ℕ) : Action nprocs → ℕ → ℕ
  | .handle wc => if wc.isRecv then Function.update bufBytes wc.wrId.id wc.byteLen else bufBytes
  | _ => bufBytes

end Action

namespace Node

/-- The bytes of a receive buffer from its start on. -/
def bytesOf (node : Node nprocs) (id : ℕ) (length : ℕ) : List UInt8 :=
  readBlock node.ctx.rxWin.buf (id * vbufBytes) length

variable {node node' : Node nprocs} {action : Action nprocs}

namespace Step

/-- **Receive memory.** What a step writes to the buffers and records about them. -/
theorem contents_ledger (step : Step node action node') :
    node'.ctx.rxWin.buf = action.writtenTo node.ctx.rxWin.buf ∧
      node'.ctx.rxWin.bufBytes = action.recordedIn node.ctx.rxWin.bufBytes := by
  cases step with
  | postAccepted idle performed =>
      obtain ⟨-, rfl, -⟩ := PostCall.perform_accepted performed
      exact ⟨rfl, rfl⟩
  | postRefused idle refused performed =>
      obtain ⟨rfl, -⟩ := PostCall.perform_refused refused performed
      exact ⟨rfl, rfl⟩
  | recvTest atHead performed =>
      obtain ⟨queue, rfl, -⟩ := Context.recvHead_none performed
      exact ⟨rfl, rfl⟩
  | received atHead performed =>
      obtain ⟨queue, fetched, -, -, rfl, -, -⟩ := Context.recvHead_some performed
      exact ⟨rfl, rfl⟩
  | handle handling performed =>
      obtain ⟨-, ⟨isSend, peer, -, rfl⟩ | ⟨isRecv, source, queue, -, -, rfl⟩⟩ :=
        Context.processWc_eq_ok performed
      · exact ⟨rfl, (if_neg (by rw [isSend]; exact Bool.false_ne_true)).symm⟩
      · exact ⟨rfl, (if_pos isRecv).symm⟩
  | repost atReturn performed =>
      obtain ⟨bufId, queue, -, -, rfl⟩ := Context.returnHead_some performed
      exact ⟨rfl, rfl⟩
  | repostFailed atReturn performed =>
      obtain ⟨bufId, queue, -, -, rfl⟩ := Context.returnHead_some performed
      exact ⟨rfl, rfl⟩
  | returned atReturn performed =>
      obtain ⟨queue, rfl, -⟩ := Context.returnHead_none performed
      exact ⟨rfl, rfl⟩
  | _ => exact ⟨rfl, rfl⟩

end Step

/-- A buffer that occurs once is in one place only. -/
theorem place_unique {id : Int} (single : node.occurrences id ≤ 1) {here there : Place nprocs}
    (atHere : id ∈ node.idsAt here) (atThere : id ∈ node.idsAt there) : here = there := by
  obtain ⟨place, held⟩ := exists_heldOnce (le_antisymm single (occurrences_pos atHere))
  have only {other : Place nprocs} (member : id ∈ node.idsAt other) : other = place := by
    by_contra apart
    exact held.nowhereElse other apart member
  rw [only atHere, only atThere]

/-- The buffer of a receive request that a step consumes was posted. -/
theorem Step.consumed_srq (step : Step node action node') {wr : RecvWr}
    (member : wr ∈ action.consumed) : wr ∈ node.srq := by
  have before := step.srq_ledger.mem_iff.mpr (List.mem_append_left node'.srq member)
  rcases List.mem_append.mp before with posted | reposted
  · exact posted
  · cases action with
    | arrive => cases reposted
    | _ => cases member

theorem Step.handled_unhandled (step : Step node action node') {wc : Wc}
    (member : wc ∈ action.handled) : wc ∈ node.unhandled := by
  have before : wc ∈ node.unhandled ++ node.produced action := by
    rw [step.unhandled_ledger]
    exact List.mem_append_left _ member
  rcases List.mem_append.mp before with waiting | produced
  · exact waiting
  · cases action with
    | handle => cases produced
    | _ => cases member

/-- A message that arrives goes into another buffer than one that is not posted. -/
theorem Step.arrive_apart {peer : Fin nprocs} {wr : RecvWr} {payload : List UInt8} {id : ℕ}
    (step : Step node (.arrive peer wr payload) node') (single : node.occurrences id ≤ 1)
    {place : Place nprocs} (member : (id : Int) ∈ node.idsAt place) (elsewhere : place ≠ .srq) :
    wr.wrId.id ≠ id := by
  intro same
  have posted : (id : Int) ∈ node.idsAt .srq :=
    List.mem_map.mpr ⟨wr, step.consumed_srq List.mem_cons_self, by rw [same]⟩
  exact elsewhere (place_unique single member posted)

/-- A buffer that is not posted keeps its bytes. -/
theorem Step.bytes_kept (step : Step node action node') (formed : node.Formed) {id : ℕ}
    (single : node.occurrences id ≤ 1) {place : Place nprocs}
    (member : (id : Int) ∈ node.idsAt place) (elsewhere : place ≠ .srq) {length : ℕ}
    (inside : length ≤ vbufBytes) : node'.bytesOf id length = node.bytesOf id length := by
  rw [bytesOf, bytesOf, step.contents_ledger.1]
  cases action with
  | arrive peer wr payload =>
      have whole := formed.srq wr (step.consumed_srq List.mem_cons_self)
      have apart := @slots_apart _ _ vbufBytes (step.arrive_apart single member elsewhere)
      apply readBlock_writeBlock_apart _ _
      rw [whole.addr, whole.length, List.length_take]
      omega
  | _ => rfl

/-- A buffer without an unhandled completion keeps its recorded length. -/
theorem Step.bufBytes_kept (step : Step node action node') {id : ℕ}
    (single : node.occurrences id ≤ 1) {place : Place nprocs}
    (member : (id : Int) ∈ node.idsAt place) (elsewhere : place ≠ .completion) :
    node'.ctx.rxWin.bufBytes id = node.ctx.rxWin.bufBytes id := by
  rw [step.contents_ledger.2]
  cases action with
  | handle wc =>
      simp only [Action.recordedIn]
      split
      next isRecv =>
        refine Function.update_of_ne ?_ ..
        intro same
        have waiting : (id : Int) ∈ node.idsAt .completion := by
          refine List.mem_map.mpr ⟨wc, List.mem_filter.mpr ⟨?_, isRecv⟩, by rw [same]⟩
          exact step.handled_unhandled List.mem_cons_self
        exact elsewhere (place_unique single member waiting)
      next => rfl
  | _ => rfl

end Node

end Ympi.Messaging
