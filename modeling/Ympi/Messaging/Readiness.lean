import Ympi.Messaging.ReceivePath
import Ympi.Messaging.SendAccounting
import Ympi.Messaging.Starvation

/-! # What the next step of a process needs

Between two interactions with the HCA a call computes on the context alone, and may end the
process there. In a reached state each of these computations succeeds as long as the verbs
layer has not failed, and what a process found when it tested a loop is still so when it polls.
-/

namespace Ympi.Messaging

open LinkedList Foundation

variable {nprocs : ℕ}

/-- A post within bounds over an existing queue pair never ends the process. -/
theorem PostCall.perform_ne_error {ctx : Context nprocs} {call : PostCall nprocs}
    {outcome : PostOutcome} {halt : Halt} (bounded : call.InBounds)
    (present : ctx.qps.qpList call.dest ≠ none) : call.perform ctx outcome ≠ .error halt := by
  have posts : ctx.postSend call.dest outcome ≠ .error halt := by
    unfold Context.postSend
    rw [if_neg present]
    intro failed
    cases outcome with
    | accepted =>
        simp only at failed
        split at failed <;> cases failed
    | failed err => cases failed
    | badWr => cases failed
  cases call with
  | zsend => rwa [perform, Context.zsend, if_pos (by exact bounded)]
  | write => rwa [perform, Context.write, if_pos (by exact bounded)]
  | read => rwa [perform, Context.read, if_pos (by exact bounded)]

namespace Context

variable {ctx : Context nprocs}

/-- `YMPID_Return` never ends the process. -/
theorem returnHead_ne_error (halt : Halt) : ctx.returnHead ≠ .error halt := by
  intro failed
  unfold returnHead at failed
  rcases error_of_bind failed with undequeued | ⟨⟨queue, bufId⟩, dequeued, failed⟩
  · exact dequeue_ne_error _ _ undequeued
  · simp only at failed
    split at failed <;> cases failed

/-- Nor does `YMPI_Zrecv` while a buffer that it hands out finds room in `vbuf_fetched`. -/
theorem recvHead_ne_error {source : Fin nprocs} (halt : Halt)
    (room : (ctx.rxWin.pendingRecvQueue source).contents ≠ [] →
      ctx.rxWin.vbufFetched.contents.length < prepostDepth) :
    ctx.recvHead source ≠ .error halt := by
  intro failed
  unfold recvHead at failed
  rcases error_of_bind failed with undequeued | ⟨⟨queue, bufId⟩, dequeued, failed⟩
  · exact dequeue_ne_error _ _ undequeued
  · simp only at failed
    split at failed
    next given =>
      have some : (ctx.rxWin.pendingRecvQueue source).contents ≠ [] := by
        rcases PooledQueue.dequeue_eq_ok dequeued with ⟨-, -, zero⟩ | stored
        · exact absurd zero given
        · rw [stored]
          exact List.cons_ne_nil _ _
      obtain ⟨fetched, enqueued, -⟩ := ctx.rxWin.vbufFetched.enqueue_ok bufId (room some)
      rw [enqueued] at failed
      cases failed
    next => cases failed

end Context

namespace Node

variable {node node' : Node nprocs} {action : Action nprocs} {history : List (Action nprocs)}

/-- The completion belongs to a request to a peer or to a message from a source. -/
def Knows (node : Node nprocs) (wc : Wc) : Prop :=
  (∃ peer : Fin nprocs, wc.isSendTo peer = true) ∨ ∃ source, node.isFrom source wc

/-- The HCA produces completions of requests and messages of peers only. -/
theorem Step.knows_produced (step : Step node action node') (formed : node.Formed) {wc : Wc}
    (member : wc ∈ node.produced action) : node.Knows wc := by
  cases step with
  | @complete peer front back executed qpNum status listed paired =>
      have addressed := formed.executed peer executed (by rw [listed]; simp)
      simp only [produced, paired, Option.toList_some, List.map_singleton,
        List.mem_singleton] at member
      subst member
      exact Or.inl ⟨peer, by simp [Wc.isSendTo, addressed.tag, addressed.id]⟩
  | @arrive peer front back wr qpNum payload listed paired =>
      have tag := (formed.srq wr (by rw [listed]; simp)).tag
      simp only [produced, paired, Option.toList_some, List.map_singleton,
        List.mem_singleton] at member
      subst member
      exact Or.inr ⟨peer, by simp [Wc.isRecv, recvWc, tag], node.ctx.qps.rank_eq peer qpNum paired⟩
  | _ => cases member

/-- Every completion that is to be handled names its peer. -/
theorem reaches_knows (reached : (system nprocs).Reaches history node) :
    ∀ wc ∈ node.unhandled, node.Knows wc := by
  refine reached.induction (motive := fun _ node => ∀ wc ∈ node.unhandled, node.Knows wc) ?_ ?_
  · intro start initial wc member
    rw [initial.unhandled_eq] at member
    cases member
  · intro labels before action after earlier knows step wc member
    have known : before.Knows wc := by
      have origin : wc ∈ before.unhandled ++ before.produced action := by
        rw [step.unhandled_ledger]
        exact List.mem_append_right _ member
      rcases List.mem_append.mp origin with waiting | new
      · exact knows wc waiting
      · exact step.knows_produced (reaches_formed earlier) new
    rcases known with isSend | ⟨source, isFrom⟩
    · exact Or.inl isSend
    · refine Or.inr ⟨source, isFrom.1, ?_⟩
      rw [step.qps_eq]
      exact isFrom.2

/-- `process_wc` handles a successful completion. -/
theorem reaches_processWc (reached : (system nprocs).Reaches history node)
    (posted : ∀ wr, Action.repost wr false ∉ history) {wc : Wc} (member : wc ∈ node.unhandled)
    (successful : wc.status = .success) : ∃ ctx, node.ctx.processWc wc = .ok ctx := by
  rcases reaches_knows reached wc member with ⟨peer, isSend⟩ | ⟨source, isFrom⟩
  · exact ⟨_, Context.processWc_send successful isSend⟩
  · obtain ⟨queue, -, performed⟩ := Context.processWc_recv successful isFrom.1 isFrom.2
      (pending_room reached posted source)
    exact ⟨_, performed⟩

/-- The SRQ is not full when `YMPID_Return` posts to it. -/
theorem Step.srq_room (step : Step node action node') {wr : RecvWr}
    (reposts : action = .repost wr false) (reached : (system nprocs).Reaches history node)
    (rank : Fin nprocs) : node.srq.length < maxSrqWr := by
  subst reposts
  have whole := reaches_length reached rank
  have held : 0 < node.fetchedIds.length := by
    cases step with
    | repostFailed atReturn performed =>
        obtain ⟨bufId, queue, stored, -, -⟩ := Context.returnHead_some performed
        rw [fetchedIds, stored]
        exact Nat.succ_pos _
  have larger : prepostDepth ≤ maxSrqWr := by decide
  rw [occupied] at whole
  omega

/-- No request is outstanding when the counter of all of them is not positive. -/
theorem reaches_settled (reached : (system nprocs).Reaches history node)
    (none : ¬ 0 < node.ctx.pendingSendWr) (peer : Fin nprocs) : node.outstanding peer = 0 := by
  have total := reaches_pendingTotal reached
  have counted : ∑ peer, node.ctx.qpPendingSendWr peer = ∑ peer, (node.outstanding peer : Int) :=
    Finset.sum_congr rfl fun peer _ => reaches_qpPending reached peer
  have part : (node.outstanding peer : Int) ≤ ∑ peer, (node.outstanding peer : Int) :=
    Finset.single_le_sum (f := fun peer => (node.outstanding peer : Int))
      (fun _ _ => Int.natCast_nonneg _) (Finset.mem_univ peer)
  omega

/-- What the test of a polling loop found: nothing to hand out, or a request to wait for. The
throttle loop is entered with a request to wait for, the `for` loop with a completion. -/
def Tested (node : Node nprocs) : Prop :=
  match node.pc with
  | .polling (.recv source) => node.pending source = []
  | .polling .flush => 0 < node.ctx.pendingSendWr
  | .polling (.throttle dest) => 0 < node.ctx.qpPendingSendWr dest
  | .head (.throttle dest) => 0 < node.ctx.qpPendingSendWr dest
  | .handling _ batch => batch ≠ []
  | _ => True

theorem Tested.recv {source : Fin nprocs} (tested : node.Tested)
    (polling : node.pc = .polling (.recv source)) : node.pending source = [] := by
  rw [Tested, polling] at tested
  exact tested

theorem Tested.flush (tested : node.Tested) (polling : node.pc = .polling .flush) :
    0 < node.ctx.pendingSendWr := by
  rw [Tested, polling] at tested
  exact tested

theorem Tested.throttle {dest : Fin nprocs} (tested : node.Tested)
    (polling : node.pc = .polling (.throttle dest)) : 0 < node.ctx.qpPendingSendWr dest := by
  rw [Tested, polling] at tested
  exact tested

theorem Tested.handling {loop : Loop nprocs} {batch : List Wc} (tested : node.Tested)
    (handling : node.pc = .handling loop batch) : batch ≠ [] := by
  rw [Tested, handling] at tested
  exact tested

theorem Tested.of_idle {ret : Int} (idle : node.pc = .idle ret) : node.Tested := by
  rw [Tested, idle]
  trivial

theorem Step.tested (step : Step node action node') (proper : node.Proper)
    (tested : node.Tested) : node'.Tested := by
  cases step with
  | @postAccepted ret call ctx pc idle performed =>
      obtain ⟨-, rfl, rfl⟩ := PostCall.perform_accepted performed
      by_cases limit : node.ctx.qpPendingSendWr call.dest + 1 = maxSendWrPerQp
      · have full : (0 : Int) < maxSendWrPerQp := by decide
        have counted := node.ctx.incPending_self call.dest
        simp only [if_pos limit, Tested]
        omega
      · rw [if_neg limit]
        trivial
  | postRefused idle refused performed =>
      obtain ⟨rfl, rfl⟩ := PostCall.perform_refused refused performed
      trivial
  | throttleTest atHead =>
      rw [Tested, atHead] at tested
      exact tested
  | flushTest atHead positive => exact positive
  | @recvTest source ctx atHead performed =>
      obtain ⟨empty, rfl⟩ := Context.recvHead_empty performed (proper.minusOne_pending source)
      exact empty
  | @poll loop batch rest polling split =>
      cases batch with
      | cons wc others => exact List.cons_ne_nil wc others
      | nil =>
          cases loop with
          | throttle dest => exact tested.throttle polling
          | flush | recv => trivial
  | @pollError loop polling => cases loop <;> trivial
  | @handle loop wc rest ctx handling performed =>
      cases rest with
      | cons next others => exact List.cons_ne_nil next others
      | nil => cases loop <;> trivial
  | repost atReturn performed =>
      simp only [Tested, atReturn]
  | store _ idle | register _ idle => exact Tested.of_idle idle
  | execute | complete | arrive | land => exact tested
  | _ => trivial

/-- What the test of a polling loop found holds in every reached state. -/
theorem reaches_tested (reached : (system nprocs).Reaches history node) : node.Tested := by
  refine reached.induction (motive := fun _ node => node.Tested) ?_ ?_
  · intro start initial
    rw [Tested, initial.pc_eq]
    trivial
  · intro labels before action after earlier tested step
    exact step.tested (reaches_proper earlier) tested

end Node

end Ympi.Messaging
