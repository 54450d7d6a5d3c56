import Ympi.Messaging.HeldBuffers
import Ympi.Messaging.Runs

/-! # A failed `YMPID_Return`

The loop of `YMPID_Return` takes a buffer from `vbuf_fetched` before it posts it. When
the post fails the function returns at once, and the buffer it was posting is neither
posted nor in `vbuf_fetched`. All buffers before it are posted and all after it stay.
-/

namespace Ympi.Messaging

open LinkedList Foundation

variable {nprocs : ℕ}

namespace Node

/-- From `before` to `after`, by the steps `labels`, no buffer of `vbuf_fetched` is lost:
each has been posted or is still there, and those that stay keep their order. -/
structure LossFree (before after : Node nprocs) (labels : List (Action nprocs)) : Prop where
  kept : (requestIds (labels.flatMap Action.reposted) ++ after.fetchedIds).Perm before.fetchedIds
  ordered : after.fetchedIds.Sublist before.fetchedIds

variable {node before later after : Node nprocs} {labels : List (Action nprocs)} {wr : RecvWr}

/-- The failed post of a buffer ends the loop, and the buffer is gone. -/
theorem Step.repost_failed (step : Step later (.repost wr false) after) (proper : later.Proper) :
    later.fetchedIds = (wr.wrId.id : Int) :: after.fetchedIds ∧ after.pc = .idle 0 := by
  have moved := step.fetched_ledger proper
  simp only [Action.fetched, Action.unfetched, List.append_nil, List.singleton_append] at moved
  refine ⟨moved, ?_⟩
  cases step with
  | repostFailed => rfl

/-- What a call of `YMPID_Return` with a failed post did to the buffers in
`vbuf_fetched`: it posted some, lost the next one, and left the rest. -/
theorem failed_balance (proper : before.Proper) (atReturn : before.pc = .returning)
    (loop : (system nprocs).Execution before labels later) (unfinished : Action.returned ∉ labels)
    (posted : ∀ wr, Action.repost wr false ∉ labels) (fails : Step later (.repost wr false) after) :
    before.fetchedIds = requestIds (labels.flatMap Action.reposted) ++
      (wr.wrId.id : Int) :: after.fetchedIds := by
  have inside : before.pc.InReturn := by
    rw [atReturn]
    trivial
  rw [(execution_reposted proper inside loop unfinished posted).2,
    (fails.repost_failed (execution_proper loop proper)).1]

/-- A buffer that is missing from the posted and the remaining ones is a loss. -/
theorem not_lossFree {id : Int} (balance : before.fetchedIds =
    requestIds (labels.flatMap Action.reposted) ++ id :: after.fetchedIds) :
    ¬ LossFree before after labels := by
  intro lossFree
  have same := lossFree.kept.length_eq
  rw [balance] at same
  simp at same

/-- A call of `YMPID_Return` whose posts succeed loses nothing. -/
theorem lossFree_returned (proper : before.Proper) (atReturn : before.pc = .returning)
    (loop : (system nprocs).Execution before labels later) (unfinished : Action.returned ∉ labels)
    (posted : ∀ wr, Action.repost wr false ∉ labels) : LossFree before later labels := by
  have inside : before.pc.InReturn := by
    rw [atReturn]
    trivial
  have balance := (execution_reposted proper inside loop unfinished posted).2
  refine ⟨?_, ?_⟩
  · rw [balance]
  · rw [balance]
    exact List.sublist_append_right _ _

/-- The post of any buffer in `vbuf_fetched` can be the one that fails. -/
theorem exists_failed {front back : List Int} {id : Int} (proper : before.Proper)
    (atReturn : before.pc = .returning) (stored : before.fetchedIds = front ++ id :: back) :
    ∃ later after, (system nprocs).Execution before
        (front.map fun posted => .repost (before.ctx.recvRequest posted) true) later ∧
      Step later (.repost (before.ctx.recvRequest id) false) after := by
  induction front generalizing before with
  | nil =>
      have given : id ≠ -1 := by
        have := proper.fetched id (by rw [stored]; simp)
        omega
      obtain ⟨queue, left, performed⟩ := Context.returnHead_cons given stored
      exact ⟨before, _, .refl _, Step.repostFailed atReturn performed⟩
  | cons first rest ih =>
      have given : first ≠ -1 := by
        have := proper.fetched first (by rw [stored]; simp)
        omega
      obtain ⟨queue, left, performed⟩ := Context.returnHead_cons given stored
      have step := Step.repost atReturn performed
      obtain ⟨later, after, run, fails⟩ := @ih
        { before with
          ctx := before.ctx.withFetched queue
          srq := before.srq ++ [before.ctx.recvRequest first] }
        (step.proper proper) atReturn left
      exact ⟨later, after, .cons step run, fails⟩

/-- A process in its first `YMPID_Return` whose fourth post fails: buffer 3 is lost. -/
theorem failed_return_loses_buffer : ∃ (before later after : Node 3)
    (labels : List (Action 3)) (wr : RecvWr), before.Initial ∧
      (system 3).Execution before labels later ∧ Action.returned ∉ labels ∧
      (∀ wr, Action.repost wr false ∉ labels) ∧ Step later (.repost wr false) after ∧
      wr.wrId.id = 3 ∧ ¬ LossFree before after labels := by
  obtain ⟨before, initial, -⟩ := exists_initial (QpTable.direct 3 (by decide)) (fun _ => 0) []
  have stored : before.fetchedIds = [0, 1, 2] ++ 3 ::
      ((List.range prepostDepth).map Int.ofNat).drop 4 := initial.fresh.fetched
  obtain ⟨later, after, run, fails⟩ := exists_failed initial.proper initial.pc_eq stored
  have unfinished : Action.returned ∉ ([0, 1, 2] : List Int).map fun posted =>
      (.repost (before.ctx.recvRequest posted) true : Action 3) := by simp
  have posted : ∀ wr, Action.repost wr false ∉ ([0, 1, 2] : List Int).map fun posted =>
      (.repost (before.ctx.recvRequest posted) true : Action 3) := by simp
  exact ⟨before, later, after, _, _, initial, run, unfinished, posted, fails, rfl,
    not_lossFree (failed_balance initial.proper initial.pc_eq run unfinished posted fails)⟩

/-- **A failed return loses a buffer.** For every content of `vbuf_fetched` and whichever
post fails, `YMPID_Return` is not loss-free: the buffers before the failed post are
posted, those after it stay in their order, and the buffer itself is in neither place. -/
theorem failed_return_loses {before later after : Node nprocs} {labels : List (Action nprocs)}
    {wr : RecvWr} (proper : before.Proper) (atReturn : before.pc = .returning)
    (loop : (system nprocs).Execution before labels later) (unfinished : Action.returned ∉ labels)
    (posted : ∀ wr, Action.repost wr false ∉ labels)
    (fails : Step later (.repost wr false) after) :
    ¬ LossFree before after labels ∧ before.fetchedIds =
      requestIds (labels.flatMap Action.reposted) ++ (wr.wrId.id : Int) :: after.fetchedIds := by
  have balance := failed_balance proper atReturn loop unfinished posted fails
  exact ⟨not_lossFree balance, balance⟩

/-- The failure of the first post of a process. -/
theorem failed_return_loses_first : ∃ (before later after : Node 3) (wr : RecvWr),
    before.Initial ∧ (system 3).Execution before [] later ∧
      Step later (.repost wr false) after ∧ ¬ LossFree before after [] ∧
      before.fetchedIds = (wr.wrId.id : Int) :: after.fetchedIds := by
  obtain ⟨before, initial, -⟩ := exists_initial (QpTable.direct 3 (by decide)) (fun _ => 0) []
  have stored : before.fetchedIds = [] ++ 0 ::
      ((List.range prepostDepth).map Int.ofNat).drop 1 := initial.fresh.fetched
  obtain ⟨later, after, run, fails⟩ := exists_failed initial.proper initial.pc_eq stored
  exact ⟨before, later, after, _, initial, run, fails, failed_return_loses initial.proper
    initial.pc_eq run (by simp) (by simp) fails⟩

end Node

end Ympi.Messaging
