import Ympi.Messaging.Readiness

/-! # What a call still has to do

Inside a call a process goes on by itself: it polls what is in the completion queue, handles what
it has polled, and gives back what it holds. A measure that counts what every request, completion
and buffer still has before it goes down with each of these steps, and with the completion of a
request.
-/

namespace Ympi.Messaging

open LinkedList Foundation

variable {nprocs : ℕ}

namespace Action

/-- The actions by which a call goes on. -/
def goesOn : Action nprocs → Bool
  | .test _ => true
  | .poll _ => true
  | .handle _ => true
  | .repost _ posted => posted
  | .returned => true
  | _ => false

theorem isProcess_of_goesOn {action : Action nprocs} (inside : action.goesOn = true) :
    action.isProcess = true := by
  cases action with
  | test | poll | handle | repost | returned => rfl
  | _ => cases inside

end Action

namespace Node

/-- How many steps a process has before it without polling anything more. -/
def pcEffort (node : Node nprocs) : ℕ :=
  match node.pc with
  | .idle _ => 2
  | .head .flush => 3
  | .head _ => 1
  | .polling .flush => 2
  | .polling _ => 0
  | .handling _ batch => 4 * batch.length
  | .returning => 3 + node.fetchedIds.length
  | .halted .. => 0

/-- A request costs its execution, the two completions that may follow, and what each of them
costs. -/
def queueEffort (node : Node nprocs) : ℕ :=
  5 * node.cq.length + 12 * ∑ peer, (node.sendQueue peer).length +
    6 * ∑ peer, (node.executed peer).length

def effort (node : Node nprocs) : ℕ :=
  pcEffort node + queueEffort node

/-- A step that a process takes inside a call, and that lowers the measure. -/
structure Onward (node : Node nprocs) (action : Action nprocs) (node' : Node nprocs) : Prop where
  inside : action.goesOn = true
  step : Step node action node'
  less : effort node' < effort node

variable {node node' : Node nprocs} {action : Action nprocs} {history : List (Action nprocs)}

theorem Onward.busy (onward : Onward node action node') (ret : Int) : node.pc ≠ .idle ret := by
  have inside := onward.inside
  cases onward.step with
  | throttleTest located | flushTest located | flushEnd located | recvTest located
  | poll located | handle located | repost located | repostFailed located | returned located =>
      simp [located]
  | _ => cases inside

theorem effort_lt (sendQueue : node'.sendQueue = node.sendQueue)
    (executed : node'.executed = node.executed)
    (less : pcEffort node' + 5 * node'.cq.length < pcEffort node + 5 * node.cq.length) :
    effort node' < effort node := by
  rw [effort, effort, queueEffort, queueEffort, sendQueue, executed]
  omega

/-- What the HCA does changes the queues only. -/
theorem effort_of_queues {less more : ℕ} (pc : node'.pc = node.pc)
    (fetched : node'.fetchedIds = node.fetchedIds)
    (queues : queueEffort node' + less = queueEffort node + more) :
    effort node' + less = effort node + more := by
  have same : pcEffort node' = pcEffort node := by
    rw [pcEffort, pcEffort, pc, fetched]
  rw [effort, effort, same]
  omega

/-- A polling loop takes what there is in the completion queue. -/
theorem onward_poll {loop : Loop nprocs} (polling : node.pc = .polling loop)
    (some : node.cq ≠ []) : ∃ action node', Onward node action node' := by
  have split : node.cq = node.cq.take pollBatch ++ node.cq.drop pollBatch :=
    (List.take_append_drop pollBatch node.cq).symm
  have step := Step.poll polling split (List.length_take_le pollBatch node.cq)
  refine ⟨_, _, rfl, step, ?_⟩
  refine effort_lt rfl rfl ?_
  have whole := congrArg List.length split
  rw [List.length_append] at whole
  cases taken : node.cq.take pollBatch with
  | nil =>
      have none : 0 < (node.cq.take pollBatch).length := by
        rw [List.length_take, lt_min_iff]
        exact ⟨by decide, List.length_pos_of_ne_nil some⟩
      simp [taken] at none
  | cons wc others =>
      rw [taken, List.length_cons] at whole
      simp only [pcEffort, Pc.afterPoll, polling, List.length_cons]
      omega

/-- The `for` loop over polled completions handles the next one. -/
theorem onward_handle {loop : Loop nprocs} {batch : List Wc}
    (reached : (system nprocs).Reaches history node)
    (handles : ∀ wc ∈ node.unhandled, ∃ ctx, node.ctx.processWc wc = .ok ctx)
    (handling : node.pc = .handling loop batch) : ∃ action node', Onward node action node' := by
  cases batch with
  | nil => exact absurd rfl ((reaches_tested reached).handling handling)
  | cons wc rest =>
      have waiting : wc ∈ node.unhandled := by
        rw [unhandled, handling]
        exact List.mem_cons_self
      obtain ⟨ctx, performed⟩ := handles wc waiting
      refine ⟨_, _, rfl, Step.handle handling performed, ?_⟩
      refine effort_lt rfl rfl ?_
      cases rest with
      | nil => cases loop <;> simp [pcEffort, Pc.afterHandled, handling]
      | cons next others => simp [pcEffort, Pc.afterHandled, handling]

/-- `YMPID_Return` gives back the next buffer, or returns. -/
theorem onward_return (reached : (system nprocs).Reaches history node)
    (atReturn : node.pc = .returning) : ∃ action node', Onward node action node' := by
  have proper := reaches_proper reached
  cases stored : node.ctx.rxWin.vbufFetched.contents with
  | nil =>
      refine ⟨_, _, rfl, Step.returned atReturn (Context.returnHead_nil stored), ?_⟩
      refine effort_lt rfl rfl ?_
      simp only [pcEffort, atReturn]
      omega
  | cons bufId rest =>
      have given : bufId ≠ -1 := by
        have nonneg := proper.fetched bufId (by rw [fetchedIds, stored]; exact List.mem_cons_self)
        omega
      obtain ⟨queue, left, performed⟩ := Context.returnHead_cons given stored
      refine ⟨_, _, rfl, Step.repost atReturn performed, ?_⟩
      refine effort_lt rfl rfl ?_
      simp [pcEffort, atReturn, fetchedIds, stored, Context.withFetched, left]

/-- A process at the test of a loop tests it. -/
theorem onward_test {loop : Loop nprocs} (atHead : node.pc = .head loop)
    (nothing : ∀ source, loop = .recv source → node.pending source = []) :
    ∃ action node', Onward node action node' := by
  cases loop with
  | throttle dest =>
      refine ⟨_, _, rfl, Step.throttleTest atHead, ?_⟩
      refine effort_lt rfl rfl ?_
      simp [pcEffort, atHead]
  | flush =>
      by_cases positive : 0 < node.ctx.pendingSendWr
      · refine ⟨_, _, rfl, Step.flushTest atHead positive, ?_⟩
        refine effort_lt rfl rfl ?_
        simp [pcEffort, atHead]
      · refine ⟨_, _, rfl, Step.flushEnd atHead positive, ?_⟩
        refine effort_lt rfl rfl ?_
        simp [pcEffort, atHead]
  | recv source =>
      refine ⟨_, _, rfl, Step.recvTest atHead (Context.recvHead_nil (nothing source rfl)), ?_⟩
      refine effort_lt rfl rfl ?_
      simp [pcEffort, atHead]

/-- An executed request can complete. -/
theorem exists_complete {peer : Fin nprocs} (formed : node.Formed)
    (connected : node.ctx.qps.qpList peer ≠ none)
    (effected : ∀ executed ∈ node.executed peer, executed.done = true)
    (some : node.executed peer ≠ []) :
    ∃ executed node', Step node (.complete peer executed .success) node' ∧
      effort node' + 1 = effort node := by
  obtain ⟨executed, rest, listed⟩ := List.exists_cons_of_ne_nil some
  obtain ⟨qpNum, paired⟩ := Option.ne_none_iff_exists'.mp connected
  have first : executed ∈ node.executed peer := by
    rw [listed]
    exact List.mem_cons_self
  have split : node.executed peer = [] ++ executed :: rest := listed
  have step := Step.complete .success split paired (formed.executed peer executed first).signaled
    fun _ => effected executed first
  refine ⟨executed, _, step, ?_⟩
  have fewer := sum_update_add List.length node.executed peer ([] ++ rest)
  rw [listed] at fewer
  change effort _ + 1 = effort node + 0
  refine effort_of_queues rfl rfl ?_
  simp only [queueEffort, List.nil_append, List.length_append, List.length_cons,
    List.length_nil] at fewer ⊢
  omega

/-- The oldest request of a queue pair can be executed. -/
theorem exists_execute {peer : Fin nprocs} {posted : Posted} {rest : List Posted} (done : Bool)
    (fetched : List UInt8) (listed : node.sendQueue peer = posted :: rest) :
    ∃ node', Step node (.execute peer posted done fetched) node' ∧
      effort node' + 6 = effort node ∧ node'.srq = node.srq ∧ node'.ctx = node.ctx := by
  refine ⟨_, .execute done fetched listed, ?_, rfl, rfl⟩
  have fewer := sum_update_add List.length node.sendQueue peer rest
  have more := sum_update_add List.length node.executed peer
    (node.executed peer ++ [⟨posted, done⟩])
  rw [listed] at fewer
  change effort _ + 6 = effort node + 0
  refine effort_of_queues rfl rfl ?_
  simp only [queueEffort, List.length_append, List.length_cons, List.length_nil] at fewer more ⊢
  omega

end Node

end Ympi.Messaging
