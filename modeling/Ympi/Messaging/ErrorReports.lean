import Ympi.Messaging.CallRuns
import Ympi.Messaging.HeldBuffers

/-! # Errors that a call reports

A call of the verbs layer can fail at every post and at every poll. A refused
`ibv_post_send` makes its call return -1, and a failed poll in `YMPI_Zflush` or
`YMPI_Zrecv` ends the process; but the throttle loop takes a failed poll for a non-empty
one, and `YMPI_Return` ignores what `YMPID_Return` returns.
-/

namespace Ympi.Messaging

open LinkedList Foundation

variable {nprocs : ℕ}

/-- `ibv_post_send` or `ibv_post_srq_recv` fails, or `ibv_poll_cq` returns a negative
value. -/
def Action.fails : Action nprocs → Bool
  | .post _ outcome _ => outcome ≠ .accepted
  | .repost _ posted => !posted
  | .pollError => true
  | _ => false

/-- `ibv_poll_cq` returns a negative value. -/
def Action.isPollError : Action nprocs → Bool
  | .pollError => true
  | _ => false

/-- The failures after which the call returns 0 all the same: a poll of the throttle loop
in a posting call, and a post of `YMPI_Return`. -/
def Call.swallows : Call nprocs → Action nprocs → Bool
  | .post _, .pollError => true
  | .giveBack, .repost _ posted => !posted
  | _, _ => false

/-- Only a failure is swallowed. -/
theorem Call.swallows_fails {call : Call nprocs} {action : Action nprocs}
    (quiet : action.fails = false) : call.swallows action = false := by
  cases action with
  | repost wr posted => cases call <;> first | rfl | exact quiet
  | pollError => cases quiet
  | _ => cases call <;> rfl

theorem Action.fails_hca {action : Action nprocs} (hca : action.isProcess = false) :
    action.fails = false := by
  cases action with
  | execute | complete | arrive | land => rfl
  | _ => cases hca

namespace Node

variable {node node' : Node nprocs} {action : Action nprocs} {call : Call nprocs}

/-- What the steps of a call say about its failures, wherever the process is by then. -/
inductive Accounted (call : Call nprocs) (labels : List (Action nprocs)) : Pc nprocs → Prop where
  /-- Inside the call nothing has failed. -/
  | inside {pc : Pc nprocs} :
      pc.Serves call → (∀ action ∈ labels, action.fails = false) → Accounted call labels pc
  | ended {halt : Halt} {batch : List Wc} :
      (∀ action ∈ labels, call.swallows action = false) → Accounted call labels (.halted halt batch)
  | refused : (∀ action ∈ labels, call.swallows action = false) → Accounted call labels (.idle (-1))
  /-- A call that returned 0 has swallowed every failure. -/
  | returned : (∀ action ∈ labels, action.fails = call.swallows action) →
      Accounted call labels (.idle 0)

theorem forall_snoc {α : Type} {property : α → Prop} {items : List α} {last : α}
    (earlier : ∀ item ∈ items, property item) (own : property last) :
    ∀ item ∈ items ++ [last], property item := by
  intro item member
  rcases List.mem_append.mp member with before | final
  · exact earlier item before
  · rw [List.mem_singleton.mp final]
    exact own

/-- A step of a process in a call: it goes on without a failure, or the process ends, or
the call returns 0 and the failure of the step, if it is one, is swallowed. -/
theorem Step.serves_fails (step : Step node action node') (serves : node.pc.Serves call) :
    (node'.pc.Serves call ∧ action.fails = false) ∨
      ((∃ halt batch, node'.pc = .halted halt batch) ∧ call.swallows action = false) ∨
      (node'.pc = .idle 0 ∧ action.fails = call.swallows action) := by
  cases fails : action.fails with
  | false =>
      rcases step.serves serves with idle | inside
      · exact Or.inr (Or.inr ⟨idle, (Call.swallows_fails fails).symm⟩)
      · exact Or.inl ⟨inside, rfl⟩
  | true =>
      cases step with
      | postRefused idle => exact absurd idle (serves.not_idle _)
      | repostFailed located =>
          rw [located] at serves
          cases serves.eq_giveBack
          exact Or.inr (Or.inr ⟨rfl, rfl⟩)
      | @pollError loop located =>
          rw [located] at serves
          cases serves with
          | polling own =>
              cases call with
              | post posted =>
                  cases own
                  exact Or.inr (Or.inr ⟨rfl, rfl⟩)
              | zflush =>
                  cases own
                  exact Or.inr (Or.inl ⟨⟨_, _, rfl⟩, rfl⟩)
              | zrecv source =>
                  cases own
                  exact Or.inr (Or.inl ⟨⟨_, _, rfl⟩, rfl⟩)
              | giveBack => cases own
      | _ => cases fails

/-- Outside `YMPID_Return` and between the posts, only a poll can fail. -/
theorem Step.fails_eq (step : Step node action node') (elsewhere : node.pc ≠ .returning)
    (busy : Busy node action node') : action.fails = action.isPollError := by
  cases step with
  | postAccepted idle => exact absurd idle (busy rfl _)
  | postRefused idle => exact absurd idle (busy rfl _)
  | repost located => exact absurd located elsewhere
  | repostFailed located => exact absurd located elsewhere
  | _ => rfl

/-- A process that has ended takes no more steps. -/
theorem Step.halted {halt : Halt} {batch : List Wc} (step : Step node action node')
    (ended : node.pc = .halted halt batch) : action.isProcess = false := by
  cases step with
  | execute | complete | arrive | land => rfl
  | halt fails =>
      cases fails with
      | post located | recv located | handle located | giveBack located =>
          rw [ended] at located
          cases located
  | _ => simp_all

/-- A step of a process in its call, or of its HCA. -/
theorem Accounted.step {labels : List (Action nprocs)} {pc : Pc nprocs}
    (accounted : Accounted call labels pc) (located : node.pc = pc)
    (step : Step node action node') (busy : Busy node action node') :
    Accounted call (labels ++ [action]) node'.pc := by
  cases own : action.isProcess with
  | false =>
      have quiet := Action.fails_hca own
      have kept := @Call.swallows_fails _ call _ quiet
      rw [step.pc_eq own, located]
      cases accounted with
      | inside serves none => exact .inside serves (forall_snoc none quiet)
      | ended none => exact .ended (forall_snoc none kept)
      | refused none => exact .refused (forall_snoc none kept)
      | returned same => exact .returned (forall_snoc same (quiet.trans kept.symm))
  | true =>
      cases accounted with
      | inside serves none =>
          subst located
          have unswallowed : ∀ action ∈ labels, call.swallows action = false :=
            fun action member => Call.swallows_fails (none action member)
          rcases step.serves_fails serves with ⟨inside, quiet⟩ | ⟨⟨halt, batch, ended⟩, kept⟩ |
            ⟨idle, same⟩
          · exact .inside inside (forall_snoc none quiet)
          · rw [ended]
            exact .ended (forall_snoc unswallowed kept)
          · rw [idle]
            refine .returned (forall_snoc ?_ same)
            intro action member
            rw [none action member, unswallowed action member]
      | ended =>
          rw [step.halted located] at own
          cases own
      | refused => exact absurd located (busy own _)
      | returned => exact absurd located (busy own _)

/-- The first step of a call. -/
theorem Step.starts_accounted (step : Step node action node') (starts : call.Starts action) :
    Accounted call [action] node'.pc := by
  have single {property : Action nprocs → Prop} (holds : property action) :
      ∀ item ∈ [action], property item := by
    intro item member
    rw [List.mem_singleton.mp member]
    exact holds
  cases starts with
  | post posted outcome data =>
      cases step with
      | postAccepted _ performed =>
          have atEnd := (PostCall.perform_accepted performed).2.2
          subst atEnd
          simp only
          split
          · exact .inside (.head rfl) (single rfl)
          · exact .returned (single rfl)
      | postRefused _ refused performed =>
          have atEnd := (PostCall.perform_refused refused performed).2
          subst atEnd
          exact .refused (single rfl)
  | zflush =>
      cases step with
      | zflush => exact .inside (.head rfl) (single rfl)
  | zrecv source =>
      cases step with
      | zrecv => exact .inside (.head rfl) (single rfl)
  | giveBack =>
      cases step with
      | giveBack => exact .inside (.returning rfl) (single rfl)

theorem CallRun.accounted {first : Action nprocs} {labels : List (Action nprocs)}
    {before after : Node nprocs} (run : CallRun call before first labels after) :
    Accounted call (first :: labels) after.pc := by
  obtain ⟨starts, mid, step, execution⟩ := run
  have begun := step.starts_accounted starts
  clear step
  induction execution with
  | refl => exact begun
  | snoc _ last ih => exact ih.step rfl last.1 last.2

/-- **Reported errors of a messaging call.** A run in which something fails does not end
in the return of 0, if and only if no failure in it is of a kind that its call swallows. -/
theorem CallRun.reports_iff {first : Action nprocs} {labels : List (Action nprocs)}
    {before after : Node nprocs} (run : CallRun call before first labels after) :
    ((∃ action ∈ first :: labels, action.fails = true) → after.pc ≠ .idle 0) ↔
      ∀ action ∈ first :: labels, call.swallows action = false := by
  have accounted := run.accounted
  generalize located : after.pc = pc at accounted
  cases accounted with
  | inside serves none =>
      refine ⟨?_, ?_⟩
      · intro _ action member
        exact Call.swallows_fails (none action member)
      · intro _ _
        exact serves.not_idle 0
  | ended none => exact ⟨fun _ => none, fun _ _ => by simp⟩
  | refused none => exact ⟨fun _ => none, fun _ _ => by simp⟩
  | returned same =>
      refine ⟨?_, ?_⟩
      · intro reports action member
        rw [← same action member]
        by_contra failed
        exact reports ⟨action, member, Bool.eq_true_of_not_eq_false failed⟩ rfl
      · rintro unswallowed ⟨action, member, failed⟩
        rw [same action member, unswallowed action member] at failed
        cases failed

/-- A process that was handed a buffer gives it back: the post fails, and `YMPI_Return`
returns 0. -/
theorem exists_failed_return : ∃ (history : List (Action 2)) (before after : Node 2)
    (wr : RecvWr), (system 2).Reaches history before ∧
      CallRun .giveBack before .giveBack [.repost wr false] after ∧ after.pc = .idle 0 := by
  obtain ⟨history, node, before, result, payload, -, -, reached, receive, -⟩ := exists_received
  have handed := receive.fetched_ledger (reaches_proper reached)
  have idle : before.pc = .idle 0 := by
    cases receive with
    | received => rfl
  have reached' := reached.step receive
  have calls : Step before .giveBack { before with pc := .returning } := .giveBack idle
  obtain ⟨id, back, stored⟩ : ∃ id back, before.fetchedIds = id :: back := by
    simp only [Action.unfetched, Action.fetched, List.nil_append] at handed
    rw [← handed]
    cases node.fetchedIds with
    | nil => exact ⟨_, _, rfl⟩
    | cons id back => exact ⟨_, _, rfl⟩
  have given : id ≠ -1 := by
    have := (reaches_proper reached').fetched id (by rw [stored]; simp)
    omega
  obtain ⟨queue, -, performed⟩ := Context.returnHead_cons given stored
  have fails := @Step.repostFailed _ { before with pc := .returning } _ _ rfl performed
  exact ⟨_, before, _, _, reached', ⟨.giveBack, _, calls, .single ⟨fails, fun _ ret => by simp⟩⟩,
    rfl⟩

end Node

end Ympi.Messaging
