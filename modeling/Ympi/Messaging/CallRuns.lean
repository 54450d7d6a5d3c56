import Ympi.Messaging.RdmaRequests

/-! # Calls as units

A run of a call begins with a step out of an idle process and goes on until the process
is idle again or has ended; in between the process takes only steps of this call, while
its HCA may do anything. What the point of a process says about its call is kept by
every step.
-/

namespace Ympi.Messaging

open LinkedList Foundation

variable {nprocs : ℕ}

/-- A call of the messaging library. -/
inductive Call (nprocs : ℕ) where
  | post (call : PostCall nprocs)
  | zflush
  | zrecv (source : Fin nprocs)
  | giveBack

namespace Call

/-- The action with which a process enters the call. -/
inductive Starts : Call nprocs → Action nprocs → Prop where
  | post (call : PostCall nprocs) (outcome : PostOutcome) (data : List UInt8) :
      Starts (.post call) (.post call outcome data)
  | zflush : Starts .zflush .zflush
  | zrecv (source : Fin nprocs) : Starts (.zrecv source) (.zrecv source)
  | giveBack : Starts .giveBack .giveBack

/-- The action with which the call may return. Only a call of `YMPI_Zrecv` hands out a
buffer, and it returns with one. -/
inductive Returns : Call nprocs → Action nprocs → Prop where
  | post (call : PostCall nprocs) {action : Action nprocs} :
      action.fetched = [] → Returns (.post call) action
  | zflush {action : Action nprocs} : action.fetched = [] → Returns .zflush action
  | zrecv (source : Fin nprocs) (result : Received) (payload : List UInt8) :
      Returns (.zrecv source) (.received source result payload)
  | returned : Returns .giveBack .returned
  | repostFailed (wr : RecvWr) : Returns .giveBack (.repost wr false)

/-- The polling loop in the call. -/
def loop : Call nprocs → Option (Loop nprocs)
  | .post call => some (.throttle call.dest)
  | .zflush => some .flush
  | .zrecv source => some (.recv source)
  | .giveBack => none

end Call

/-- The process is inside the call, or has ended. -/
inductive Pc.Serves (call : Call nprocs) : Pc nprocs → Prop where
  | head {loop : Loop nprocs} : call.loop = some loop → Serves call (.head loop)
  | polling {loop : Loop nprocs} : call.loop = some loop → Serves call (.polling loop)
  | handling {loop : Loop nprocs} (batch : List Wc) :
      call.loop = some loop → Serves call (.handling loop batch)
  | returning : call = .giveBack → Serves call .returning
  | halted (halt : Halt) (batch : List Wc) : Serves call (.halted halt batch)

theorem Pc.Serves.not_idle {call : Call nprocs} {pc : Pc nprocs} (serves : pc.Serves call)
    (ret : Int) : pc ≠ .idle ret := by
  cases serves <;> simp

/-- Only a call of `YMPI_Return` gives buffers back. -/
theorem Pc.Serves.eq_giveBack {call : Call nprocs} (serves : Pc.Serves call .returning) :
    call = .giveBack := by
  cases serves with
  | returning same => exact same

namespace Node

/-- The process takes the step inside a call. -/
def Busy (before : Node nprocs) (action : Action nprocs) (_ : Node nprocs) : Prop :=
  action.isProcess = true → ∀ ret, before.pc ≠ .idle ret

variable {node node' : Node nprocs} {action : Action nprocs} {call : Call nprocs}

namespace Step

/-- Only a process changes the point it is at. -/
theorem pc_eq (step : Step node action node') (hca : action.isProcess = false) :
    node'.pc = node.pc := by
  cases step with
  | execute | complete | arrive | land => rfl
  | _ => cases hca

/-- A process calls `YMPI_Return` between its calls. -/
theorem giveBack_idle (step : Step node .giveBack node') : ∃ ret, node.pc = .idle ret := by
  cases step with
  | giveBack idle => exact ⟨_, idle⟩

/-- A call returns at once or goes on inside. -/
theorem starts_serves (step : Step node action node') (starts : call.Starts action) :
    (∃ ret, node'.pc = .idle ret) ∨ node'.pc.Serves call := by
  cases starts with
  | post posted outcome data =>
      cases step with
      | postAccepted _ performed =>
          have atEnd := (PostCall.perform_accepted performed).2.2
          subst atEnd
          simp only
          split
          · exact Or.inr (.head rfl)
          · exact Or.inl ⟨0, rfl⟩
      | postRefused _ refused performed =>
          exact Or.inl ⟨-1, (PostCall.perform_refused refused performed).2⟩
  | zflush =>
      cases step with
      | zflush => exact Or.inr (.head rfl)
  | zrecv source =>
      cases step with
      | zrecv => exact Or.inr (.head rfl)
  | giveBack =>
      cases step with
      | giveBack => exact Or.inr (.returning rfl)

/-- A step of a process in a call stays in the call, or the call returns 0. -/
theorem serves (step : Step node action node') (serves : node.pc.Serves call) :
    node'.pc = .idle 0 ∨ node'.pc.Serves call := by
  cases step with
  | postAccepted idle | postRefused idle | zflush idle | zrecv _ idle | giveBack idle
  | store _ idle | register _ idle => exact absurd idle (serves.not_idle _)
  | throttleTest located | flushTest located | recvTest located =>
      rw [located] at serves
      cases serves with
      | head own => exact Or.inr (.polling own)
  | flushEnd | received | repostFailed | returned => exact Or.inl rfl
  | @poll loop batch rest located =>
      rw [located] at serves
      cases serves with
      | polling own =>
          cases batch with
          | nil => exact Or.inr (.head own)
          | cons wc others => exact Or.inr (.handling _ own)
  | @pollError loop located =>
      cases loop with
      | throttle dest => exact Or.inl rfl
      | flush => exact Or.inr (.halted _ _)
      | recv source => exact Or.inr (.halted _ _)
  | @handle loop wc rest ctx located =>
      rw [located] at serves
      cases serves with
      | handling _ own =>
          cases rest with
          | nil =>
              cases loop with
              | throttle dest => exact Or.inl rfl
              | flush => exact Or.inr (.head own)
              | recv source => exact Or.inr (.head own)
          | cons next others => exact Or.inr (.handling _ own)
  | repost | execute | complete | arrive | land => exact Or.inr serves
  | halt => exact Or.inr (.halted _ _)

/-- A call that returns at once does so with its own action. -/
theorem starts_returns {ret : Int} (step : Step node action node') (starts : call.Starts action)
    (returned : node'.pc = .idle ret) : call.Returns action := by
  cases starts with
  | post posted outcome data => exact .post posted rfl
  | zflush =>
      cases step with
      | zflush => cases returned
  | zrecv source =>
      cases step with
      | zrecv => cases returned
  | giveBack =>
      cases step with
      | giveBack => cases returned

/-- A step of a process in a call may end it. -/
theorem serves_returns {ret : Int} (step : Step node action node') (serves : node.pc.Serves call)
    (own : action.isProcess = true) (returned : node'.pc = .idle ret) : call.Returns action := by
  cases step with
  | postAccepted idle | postRefused idle | zflush idle | zrecv _ idle | giveBack idle
  | store _ idle | register _ idle => exact absurd idle (serves.not_idle _)
  | throttleTest located | flushTest located | recvTest located => cases returned
  | halt fails => cases returned
  | execute | complete | arrive | land => cases own
  | flushEnd located =>
      rw [located] at serves
      cases serves with
      | head same =>
          cases call with
          | zflush => exact .zflush rfl
          | _ => cases same
  | received located =>
      rw [located] at serves
      cases serves with
      | head same =>
          cases call with
          | zrecv source =>
              cases same
              exact .zrecv _ _ _
          | _ => cases same
  | @poll loop batch rest located =>
      cases batch with
      | nil => cases returned
      | cons wc others => cases returned
  | @pollError loop located =>
      rw [located] at serves
      cases serves with
      | polling same =>
          cases call with
          | post posted => exact .post posted rfl
          | zflush => exact .zflush rfl
          | zrecv source =>
              cases same
              cases returned
          | giveBack => cases same
  | @handle loop wc rest ctx located =>
      rw [located] at serves
      cases serves with
      | handling _ same =>
          cases call with
          | post posted => exact .post posted rfl
          | zflush => exact .zflush rfl
          | zrecv source =>
              cases same
              cases rest with
              | nil => cases returned
              | cons next others => cases returned
          | giveBack => cases same
  | repost located => exact absurd returned (serves.not_idle _)
  | repostFailed located =>
      rw [located] at serves
      cases serves.eq_giveBack
      exact .repostFailed _
  | returned located =>
      rw [located] at serves
      cases serves.eq_giveBack
      exact .returned

/-- A buffer is handed out as a call returns. -/
theorem fetched_returns (step : Step node action node') (fetches : action.fetched ≠ []) :
    ∃ ret, node'.pc = .idle ret := by
  cases step with
  | received => exact ⟨0, rfl⟩
  | _ => exact absurd rfl fetches

end Step

/-- A run of a call from `before` to `after`. -/
structure CallRun (call : Call nprocs) (before : Node nprocs) (first : Action nprocs)
    (labels : List (Action nprocs)) (after : Node nprocs) : Prop where
  starts : call.Starts first
  run : ∃ mid, Step before first mid ∧
    ((system nprocs).restrict Busy).Execution mid labels after

end Node

end Ympi.Messaging
