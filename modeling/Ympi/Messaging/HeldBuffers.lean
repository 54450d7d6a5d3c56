import Ympi.Messaging.BufferContents
import Ympi.Messaging.Runs

/-! # Buffers in the hands of the caller

A buffer that `YMPI_Zrecv` handed out stays in `vbuf_fetched` until the caller calls
`YMPI_Return`, and a buffer in `vbuf_fetched` is neither posted nor waiting for its
completion nor pending. So nothing can write to it, record another length for it or
hand it out again, and the call of `YMPI_Return` posts exactly these buffers.
-/

namespace Ympi.Messaging

open LinkedList Foundation

variable {nprocs : ℕ}

/-- The process is in the loop of `YMPID_Return`, or has ended. -/
def Pc.InReturn : Pc nprocs → Prop
  | .returning => True
  | .halted .. => True
  | _ => False

/-- Every buffer that the loop of `YMPID_Return` takes is posted unless a post fails. -/
theorem Action.unfetched_eq_reposted {action : Action nprocs}
    (posted : ∀ wr, action ≠ .repost wr false) :
    action.unfetched = requestIds action.reposted := by
  cases action with
  | repost wr success =>
      cases success with
      | true => rfl
      | false => exact absurd rfl (posted wr)
  | _ => rfl

namespace Node

variable {node node' : Node nprocs} {action : Action nprocs}

namespace Step

/-- Only a call of `YMPI_Return` enters the loop of `YMPID_Return`. -/
theorem returning_origin (step : Step node action node') (returning : node'.pc = .returning) :
    node.pc = .returning ∨ action = .giveBack := by
  cases step with
  | giveBack => exact Or.inr rfl
  | postAccepted idle performed =>
      have atEnd := (PostCall.perform_accepted performed).2.2
      rw [atEnd] at returning
      split at returning <;> cases returning
  | postRefused idle refused performed =>
      have atEnd := (PostCall.perform_refused refused performed).2
      rw [atEnd] at returning
      cases returning
  | @poll loop batch rest polling split =>
      cases batch with
      | nil => cases returning
      | cons => cases returning
  | @pollError loop polling => cases loop <;> cases returning
  | @handle loop wc rest ctx handling performed =>
      cases rest with
      | nil => cases loop <;> cases returning
      | cons => cases returning
  | repost atReturn => exact Or.inl atReturn
  | store => exact Or.inl returning
  | register => exact Or.inl returning
  | execute => exact Or.inl returning
  | complete => exact Or.inl returning
  | arrive => exact Or.inl returning
  | land => exact Or.inl returning
  | _ => cases returning

/-- Outside the loop of `YMPID_Return` no buffer is taken from `vbuf_fetched`. -/
theorem unfetched_eq_nil (step : Step node action node') (outside : node.pc ≠ .returning) :
    action.unfetched = [] := by
  cases step with
  | repost atReturn => exact absurd atReturn outside
  | repostFailed atReturn => exact absurd atReturn outside
  | _ => rfl

end Step

/-- Between two calls of `YMPI_Return` the buffers handed out collect in
`vbuf_fetched`. -/
theorem execution_fetched {history labels : List (Action nprocs)} {later : Node nprocs}
    (reached : (system nprocs).Reaches history node) (outside : node.pc ≠ .returning)
    (execution : (system nprocs).Execution node labels later)
    (noReturn : Action.giveBack ∉ labels) :
    later.pc ≠ .returning ∧
      later.fetchedIds = node.fetchedIds ++ labels.flatMap Action.fetched := by
  induction execution with
  | refl => exact ⟨outside, (List.append_nil _).symm⟩
  | @snoc mid target labels label earlier step ih =>
      obtain ⟨between, collected⟩ := ih fun member => noReturn (List.mem_append_left _ member)
      have proper := reaches_proper (reached.append earlier)
      have moved := step.fetched_ledger proper
      rw [step.unfetched_eq_nil between, List.nil_append, collected] at moved
      refine ⟨?_, ?_⟩
      · intro returning
        rcases step.returning_origin returning with before | gives
        · exact between before
        · exact noReturn (List.mem_append_right _ (List.mem_singleton.mpr gives.symm))
      · rw [← moved, List.flatMap_append, List.flatMap_singleton, List.append_assoc]

/-- From `before` to `after`, by the steps `labels`, the buffer handed out as `result`
is left alone. -/
structure StaysPut (result : Received) (before after : Node nprocs)
    (labels : List (Action nprocs)) : Prop where
  bytes : readBlock after.ctx.rxWin.buf result.ptr vbufBytes =
    readBlock before.ctx.rxWin.buf result.ptr vbufBytes
  length : after.ctx.rxWin.bufBytes result.bufId.toNat = result.len
  notWritten : ∀ peer wr payload, Action.arrive peer wr payload ∈ labels →
    wr.sge.addr + wr.sge.length ≤ result.ptr ∨ result.ptr + vbufBytes ≤ wr.sge.addr
  notHandedOut : ∀ source other payload, Action.received source other payload ∈ labels →
    other.bufId ≠ result.bufId

/-- While a buffer is in `vbuf_fetched`, a step leaves it alone. -/
theorem Step.staysPut {history : List (Action nprocs)} {result : Received} {id : ℕ}
    (reached : (system nprocs).Reaches history node) (step : Step node action node')
    (named : result.bufId = id) (located : result.ptr = id * vbufBytes)
    (held : (id : Int) ∈ node.fetchedIds)
    (recorded : node.ctx.rxWin.bufBytes result.bufId.toNat = result.len) :
    StaysPut result node node' [action] := by
  have formed := reaches_formed reached
  have single := reaches_occurrences_le reached id
  have atFetched : (id : Int) ∈ node.idsAt .fetched := held
  refine ⟨?_, ?_, ?_, ?_⟩
  · rw [located]
    exact step.bytes_kept formed single atFetched (by simp) le_rfl
  · rw [named, Int.toNat_natCast] at recorded ⊢
    exact (step.bufBytes_kept single atFetched (by simp)).trans recorded
  · intro peer wr payload member
    rw [← List.mem_singleton.mp member] at step
    have whole := formed.srq wr (step.consumed_srq List.mem_cons_self)
    have apart := @slots_apart _ _ vbufBytes (step.arrive_apart single atFetched (by simp))
    rw [whole.addr, whole.length, located]
    exact apart
  · intro source other payload member same
    rw [← List.mem_singleton.mp member] at step
    obtain ⟨from', pending⟩ := step.fetched_pending List.mem_cons_self
    rw [same, named] at pending
    have atPending : (id : Int) ∈ node.idsAt (.pending from') := pending
    cases place_unique single atFetched atPending

theorem StaysPut.append {result : Received} {before mid after : Node nprocs}
    {front back : List (Action nprocs)} (first : StaysPut result before mid front)
    (second : StaysPut result mid after back) : StaysPut result before after (front ++ back) where
  bytes := second.bytes.trans first.bytes
  length := second.length
  notWritten peer wr payload member := by
    rcases List.mem_append.mp member with early | late
    · exact first.notWritten peer wr payload early
    · exact second.notWritten peer wr payload late
  notHandedOut source other payload member := by
    rcases List.mem_append.mp member with early | late
    · exact first.notHandedOut source other payload early
    · exact second.notHandedOut source other payload late

/-- A buffer in the hands of the caller stays put until the next call of
`YMPI_Return`. -/
theorem execution_staysPut {history labels : List (Action nprocs)} {after later : Node nprocs}
    {source : Fin nprocs} {result : Received} {payload : List UInt8}
    (reached : (system nprocs).Reaches history node)
    (received : Step node (.received source result payload) after)
    (execution : (system nprocs).Execution after labels later)
    (noReturn : Action.giveBack ∉ labels) : StaysPut result node later labels := by
  have reached' := reached.step received
  cases received with
  | received atHead performed =>
      obtain ⟨queue, fetched, stored, appended, rfl, located, recorded⟩ :=
        Context.recvHead_some performed
      have nonneg := (reaches_proper reached).pending source result.bufId
        (by rw [pending, stored]; exact List.mem_cons_self)
      have named : result.bufId = result.bufId.toNat := (Int.toNat_of_nonneg nonneg).symm
      have held : (result.bufId.toNat : Int) ∈ fetched.contents := by
        rw [appended, ← named]
        exact List.mem_append_right _ List.mem_cons_self
      have outside : (Pc.idle 0 : Pc nprocs) ≠ .returning := by simp
      induction execution with
      | refl =>
          refine ⟨rfl, recorded.symm, ?_, ?_⟩
          · intro peer wr data member
            cases member
          · intro other data data' member
            cases member
      | @snoc mid target labels label earlier step ih =>
          have before : Action.giveBack ∉ labels := fun member =>
            noReturn (List.mem_append_left _ member)
          have first := ih before
          have collected := (execution_fetched reached' outside earlier before).2
          have stillHeld : (result.bufId.toNat : Int) ∈ mid.fetchedIds := by
            rw [collected]
            exact List.mem_append_left _ held
          exact first.append
            (step.staysPut (reached'.append earlier) named located stillHeld first.length)

namespace Step

/-- In the loop of `YMPID_Return` nothing is handed out. -/
theorem fetched_eq_nil (step : Step node action node') (inside : node.pc.InReturn) :
    action.fetched = [] := by
  cases step with
  | received atHead =>
      rw [atHead] at inside
      cases inside
  | _ => rfl

/-- The loop of `YMPID_Return` goes on until it is done or a post fails. -/
theorem inReturn (step : Step node action node') (inside : node.pc.InReturn)
    (unfinished : action ≠ .returned) (posted : ∀ wr, action ≠ .repost wr false) :
    node'.pc.InReturn := by
  cases step with
  | @repostFailed ctx wr => exact absurd rfl (posted wr)
  | returned => exact absurd rfl unfinished
  | halt => trivial
  | _ =>
      -- The other steps keep the point of the process or start from another one.
      first
      | exact inside
      | rw [‹node.pc = _›] at inside
        cases inside

end Step

/-- The loop of `YMPID_Return` posts the buffers in `vbuf_fetched`, oldest first. -/
theorem execution_reposted {labels : List (Action nprocs)} {later : Node nprocs}
    (proper : node.Proper) (inside : node.pc.InReturn)
    (execution : (system nprocs).Execution node labels later)
    (unfinished : Action.returned ∉ labels) (posted : ∀ wr, Action.repost wr false ∉ labels) :
    later.pc.InReturn ∧
      node.fetchedIds = requestIds (labels.flatMap Action.reposted) ++ later.fetchedIds := by
  induction execution with
  | refl => exact ⟨inside, rfl⟩
  | @snoc mid target labels label earlier step ih =>
      have own : label ∈ labels ++ [label] := List.mem_append_right _ List.mem_cons_self
      obtain ⟨between, balance⟩ := ih (fun member => unfinished (List.mem_append_left _ member))
        fun wr member => posted wr (List.mem_append_left _ member)
      have succeeds : ∀ wr, label ≠ .repost wr false := fun wr same => posted wr (same ▸ own)
      have moved := step.fetched_ledger (execution_proper earlier proper)
      rw [step.fetched_eq_nil between, List.append_nil,
        Action.unfetched_eq_reposted succeeds] at moved
      refine ⟨step.inReturn between (fun same => unfinished (same ▸ own)) succeeds, ?_⟩
      rw [balance, moved, List.flatMap_append, List.flatMap_singleton, requestIds_append,
        List.append_assoc]

/-- `YMPID_Return` is done when no buffer is left. -/
theorem Step.returned_empty (step : Step node .returned node') (proper : node.Proper) :
    node.fetchedIds = [] ∧ node' = { node with pc := .idle 0 } := by
  cases step with
  | returned atReturn performed =>
      obtain ⟨empty, rfl⟩ := Context.returnHead_empty performed proper.minusOne_fetched
      exact ⟨empty, rfl⟩

/-- A call of `YMPI_Return` whose posts succeed posts exactly the buffers handed out
since the call before. -/
theorem reposted_eq_fetched {history back labels : List (Action nprocs)}
    {before idle calling mid later after : Node nprocs}
    (reached : (system nprocs).Reaches history before) (last : Step before .returned idle)
    (between : (system nprocs).Execution idle back calling) (noReturn : Action.giveBack ∉ back)
    (call : Step calling .giveBack mid) (loop : (system nprocs).Execution mid labels later)
    (unfinished : Action.returned ∉ labels) (posted : ∀ wr, Action.repost wr false ∉ labels)
    (done : Step later .returned after) :
    requestIds (labels.flatMap Action.reposted) = back.flatMap Action.fetched := by
  obtain ⟨empty, rfl⟩ := last.returned_empty (reaches_proper reached)
  have reached' := reached.step last
  have reached'' := (reached'.append between).step call
  have collected := (execution_fetched reached' (by simp) between noReturn).2
  have inside : mid.pc.InReturn := by
    cases call with
    | giveBack => trivial
  have balance := (execution_reposted (reaches_proper reached'') inside loop unfinished posted).2
  rw [(done.returned_empty (reaches_proper (reached''.append loop))).1, List.append_nil] at balance
  have same : mid.fetchedIds = calling.fetchedIds := by
    cases call with
    | giveBack => rfl
  rw [← balance, same, collected]
  change before.fetchedIds ++ _ = _
  rw [empty, List.nil_append]

/-- A buffer that is posted again is not pending for any source. -/
theorem Step.repost_not_pending {history : List (Action nprocs)}
    (reached : (system nprocs).Reaches history node) {wr : RecvWr} {posted : Bool}
    (step : Step node (.repost wr posted) node') (source : Fin nprocs) :
    (wr.wrId.id : Int) ∉ node.pending source := by
  intro waits
  have held : (wr.wrId.id : Int) ∈ node.idsAt .fetched := by
    have moved := step.fetched_ledger (reaches_proper reached)
    rw [show (Action.repost wr posted : Action nprocs).fetched = [] from rfl,
      List.append_nil] at moved
    rw [idsAt, moved]
    exact List.mem_append_left _ List.mem_cons_self
  have atPending : (wr.wrId.id : Int) ∈ node.idsAt (.pending source) := waits
  cases place_unique (reaches_occurrences_le reached _) held atPending

/-- **Received data stays put until returned.** Between the return of `YMPI_Zrecv` and
the next call of `YMPI_Return` the buffer is left alone; a call of `YMPI_Return` whose
posts succeed makes exactly the buffers handed out reusable; and a buffer is never
posted while its message is pending. -/
theorem received_data_stays_put {history : List (Action nprocs)} {node : Node nprocs}
    (reached : (system nprocs).Reaches history node) :
    (∀ source result payload after labels later,
      Step node (.received source result payload) after →
      (system nprocs).Execution after labels later → Action.giveBack ∉ labels →
      StaysPut result node later labels) ∧
    (∀ idle back calling mid labels later after, Step node .returned idle →
      (system nprocs).Execution idle back calling → Action.giveBack ∉ back →
      Step calling .giveBack mid → (system nprocs).Execution mid labels later →
      Action.returned ∉ labels → (∀ wr, Action.repost wr false ∉ labels) →
      Step later .returned after →
      requestIds (labels.flatMap Action.reposted) = back.flatMap Action.fetched) ∧
    ∀ wr posted after, Step node (.repost wr posted) after →
      ∀ source, (wr.wrId.id : Int) ∉ node.pending source := by
  refine ⟨?_, ?_, ?_⟩
  · intro source result payload after labels later received execution noReturn
    exact execution_staysPut reached received execution noReturn
  · intro idle back calling mid labels later after last between noReturn call loop unfinished
      posted done
    exact reposted_eq_fetched reached last between noReturn call loop unfinished posted done
  · intro wr posted after step source
    exact step.repost_not_pending reached source

/-- `YMPI_Zrecv` hands a message of three bytes to a process of two, which has more
buffers posted. -/
theorem exists_received : ∃ (history : List (Action 2)) (node after : Node 2)
    (result : Received) (payload : List UInt8) (wr : RecvWr) (rest : List RecvWr),
    (system 2).Reaches history node ∧ Step node (.received 1 result payload) after ∧
      after.ctx.qps.qpList 1 = some 1 ∧ after.srq = wr :: rest := by
  obtain ⟨start, initial, listed, -⟩ :=
    exists_initial (QpTable.direct 2 (by decide)) (fun _ => 0) []
  obtain ⟨node, run, started, qps, -⟩ := startup initial
  have reached : (system 2).Reaches (startupActions start.ctx) node := ⟨start, initial, run⟩
  have paired : node.ctx.qps.qpList 1 = some 1 := by
    rw [qps, listed]
    rfl
  have length : node.srq.length = prepostDepth := by
    simp [started.srq_eq]
  obtain ⟨first, others, posted⟩ := List.exists_cons_of_length_pos (by rw [length]; decide)
  obtain ⟨second, rest, posted'⟩ : ∃ second rest, others = second :: rest := by
    apply List.exists_cons_of_length_pos
    rw [posted, List.length_cons, prepostDepth] at length
    omega
  have tag := ((reaches_formed reached).srq first (by rw [posted]; exact List.mem_cons_self)).tag
  -- A message arrives, and the process waits for one.
  let arrived : Node 2 := { node with
    ctx := { node.ctx with rxWin := { node.ctx.rxWin with
      buf := writeBlock node.ctx.rxWin.buf first.sge.addr
        (([1, 2, 3] : List UInt8).take first.sge.length) } }
    srq := [] ++ others
    cq := node.cq ++ [recvWc first 1 [1, 2, 3]] }
  have arrive : Step node (.arrive 1 first [1, 2, 3]) arrived := Step.arrive [1, 2, 3] posted paired
  let waiting : Node 2 := { arrived with pc := .head (.recv 1) }
  have call : Step arrived (.zrecv 1) waiting := Step.zrecv 1 started.pc_eq
  -- It takes the completion and hands the buffer out.
  have atHead : waiting.pc = .head (.recv 1) := rfl
  have nothing : waiting.pending 1 = [] := started.pending_eq 1
  have completion : waiting.cq = recvWc first 1 [1, 2, 3] :: [] := by
    simp [waiting, arrived, started.cq_eq]
  have whole := ((reaches_formed reached).srq first
    (by rw [posted]; exact List.mem_cons_self)).length
  have successful : (recvWc first 1 [1, 2, 3]).status = .success := by
    simp [recvWc, whole, vbufBytes]
  have isFrom : waiting.isFrom 1 (recvWc first 1 [1, 2, 3]) :=
    ⟨by simp [Wc.isRecv, recvWc, tag], waiting.ctx.qps.rank_eq 1 1 paired⟩
  obtain ⟨queue, stored, take⟩ := take_waiting_run atHead nothing completion successful isFrom
    (by rw [nothing]; decide)
  rw [nothing, List.nil_append] at stored
  let taken : Node 2 := { waiting with
    ctx := waiting.ctx.queued (recvWc first 1 [1, 2, 3]) 1 queue
    cq := [] }
  have pending : (taken.ctx.rxWin.pendingRecvQueue 1).contents = [(first.wrId.id : Int)] :=
    (congrArg PooledQueue.contents (waiting.ctx.queued_pending_self _ 1 queue)).trans stored
  have given : (first.wrId.id : Int) ≠ -1 := by omega
  have room : taken.ctx.rxWin.vbufFetched.contents.length < prepostDepth := by
    change node.fetchedIds.length < _
    rw [started.fetched_eq]
    decide
  obtain ⟨ctx, result, performed, -⟩ := Context.recvHead_cons given pending room
  have receive := Step.received (show taken.pc = .head (.recv 1) from rfl) performed
  have history := ((reached.step arrive).step call).append take
  have pairs : ctx.qps.qpList 1 = some 1 := by
    rw [show ctx.qps = _ from receive.qps_eq]
    exact paired
  exact ⟨_, taken, _, result, _, second, rest, history, receive, pairs, posted'⟩

/-- A process of two was handed a message of three bytes, and another one arrives. -/
theorem received_data_stays_put_arrival : ∃ (history : List (Action 2)) (wr : RecvWr)
    (node after later : Node 2) (result : Received) (payload : List UInt8),
    (system 2).Reaches history node ∧ Step node (.received 1 result payload) after ∧
      (system 2).Execution after [.arrive 1 wr [4, 5, 6]] later ∧
      StaysPut result node later [.arrive 1 wr [4, 5, 6]] := by
  obtain ⟨history, node, after, result, payload, second, rest, reached, receive, pairs, posted⟩ :=
    exists_received
  have buffers : after.srq = [] ++ second :: rest := posted
  have again : (system 2).Execution after _ _ := .single (Step.arrive [4, 5, 6] buffers pairs)
  exact ⟨history, second, node, after, _, result, payload, reached, receive, again,
    (received_data_stays_put reached).1 _ _ _ _ _ _ receive again (by simp)⟩

end Node

end Ympi.Messaging
