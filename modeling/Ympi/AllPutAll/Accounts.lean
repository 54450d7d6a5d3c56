import Ympi.AllPutAll.Threads
import Ympi.Messaging.Delivery
import Ympi.Messaging.Starvation

/-! # What a rank has done

Where the thread of a rank is says what its process has done so far: how many messages it
has sent to each peer at most, how many it has taken at least, and how many buffers it has
given back. Each account is kept by a single step of the rank or of its HCA.
-/

namespace Ympi.AllPutAll

open Foundation Messaging

variable {nprocs : ℕ} {setting : Setting nprocs} {rank : Fin nprocs}

/-- The call that a thread is at, by its stage. -/
theorem Setting.call_eq_some {thread : Thread} {call : Call nprocs}
    (found : setting.call rank thread = some call) :
    match thread.stage with
    | .sending i => ∃ q, setting.peer rank i = some q ∧
        call = .post (.zsend (setting.sendBuffer rank) (i * setting.nb) setting.nb q)
    | .flushing => call = .zflush
    | .receiving i => ∃ q, setting.peer rank i = some q ∧ call = .zrecv q
    | .returning => call = .giveBack := by
  rw [Setting.call] at found
  split at found
  next =>
    cases stage : thread.stage with
    | sending i =>
        simp only [stage, Option.map_eq_some_iff] at found ⊢
        obtain ⟨q, listed, same⟩ := found
        exact ⟨q, listed, same.symm⟩
    | receiving i =>
        simp only [stage, Option.map_eq_some_iff] at found ⊢
        obtain ⟨q, listed, same⟩ := found
        exact ⟨q, listed, same.symm⟩
    | flushing | returning =>
        simp only [stage, Option.some.injEq] at found ⊢
        exact found.symm
  next => cases found

/-- The process of a rank is between two calls or in the one that its thread is at. -/
structure InScript (setting : Setting nprocs) (rank : Fin nprocs) (node : Node nprocs)
    (thread : Thread) : Prop where
  inRange : thread.InRange
  serves : (∃ ret, node.pc = .idle ret) ∨
    ∃ call, setting.call rank thread = some call ∧ node.pc.Serves call

section Script

variable {node node' : Node nprocs} {thread : Thread} {action : Action nprocs}

/-- A process takes the first step of the call that its thread is at, or a later one. -/
theorem InScript.current (script : InScript setting rank node thread)
    (follows : setting.Follows rank thread node action) :
    ∃ call, setting.call rank thread = some call ∧
      (call.Starts action ∨ node.pc.Serves call) := by
  rcases script.serves with ⟨ret, idle⟩ | ⟨call, found, serves⟩
  · obtain ⟨call, found, starts⟩ := follows.enters ret idle
    exact ⟨call, found, Or.inl starts⟩
  · exact ⟨call, found, Or.inr serves⟩

/-- The call that a thread is at goes on or returns. -/
theorem InScript.goesOn (script : InScript setting rank node thread)
    (follows : setting.Follows rank thread node action) (step : Node.Step node action node') :
    InScript setting rank node' (thread.settle node'.pc) := by
  by_cases idle : ∃ ret, node'.pc = .idle ret
  · obtain ⟨ret, returned⟩ := idle
    rw [returned]
    exact ⟨thread.next_inRange, Or.inl ⟨ret, returned⟩⟩
  · rw [Thread.settle_of_ne fun ret same => idle ⟨ret, same⟩]
    refine ⟨script.inRange, Or.inr ?_⟩
    obtain ⟨call, found, starts | serves⟩ := script.current follows
    · exact ⟨call, found, (step.starts_serves starts).resolve_left idle⟩
    · exact ⟨call, found, (step.serves serves).resolve_left fun same => idle ⟨0, same⟩⟩

/-- A call returns with an action of its own. -/
theorem InScript.returns {ret : Int} (script : InScript setting rank node thread)
    (own : action.isProcess = true) (follows : setting.Follows rank thread node action)
    (step : Node.Step node action node') (returned : node'.pc = .idle ret) :
    ∃ call, setting.call rank thread = some call ∧ call.Returns action := by
  obtain ⟨call, found, starts | serves⟩ := script.current follows
  · exact ⟨call, found, step.starts_returns starts returned⟩
  · exact ⟨call, found, step.serves_returns serves own returned⟩

/-- A message is sent in the call of `YMPI_Zsend` to its destination, as the call begins. -/
theorem InScript.sends {dest : Fin nprocs} (script : InScript setting rank node thread)
    (follows : setting.Follows rank thread node action) (step : Node.Step node action node')
    (sent : action.sentTo dest ≠ []) :
    (∃ ret, node.pc = .idle ret) ∧ action.LengthFits ∧ ∃ turn, (1 ≤ turn ∧ turn < allputallNumprocs) ∧
      thread.stage = .sending turn ∧ setting.peer rank turn = some dest := by
  cases step with
  | @postAccepted ret call ctx pc idle performed =>
      obtain ⟨current, found, starts⟩ := follows.enters ret idle
      cases starts with
      | post posted outcome data =>
          have called := Setting.call_eq_some found
          have inRange := script.inRange
          rw [Thread.InRange] at inRange
          cases stage : thread.stage with
          | sending turn =>
              simp only [stage] at called inRange
              obtain ⟨q, listed, same⟩ := called
              cases same
              have target : q = dest := by
                by_contra other
                exact sent (if_neg other)
              subst target
              refine ⟨⟨ret, idle⟩, ?_, turn, inRange, rfl, listed⟩
              exact lt_of_le_of_lt setting.nb_le (by decide)
          | receiving turn =>
              simp only [stage] at called
              obtain ⟨q, listed, same⟩ := called
              cases same
          | flushing | returning =>
              simp only [stage] at called
              cases called
  | @postRefused ret call outcome ctx pc idle refused performed =>
      cases outcome with
      | accepted => exact absurd rfl refused
      | failed err => cases call <;> exact absurd rfl sent
      | badWr => cases call <;> exact absurd rfl sent
  | _ => exact absurd rfl sent

/-- The call of `YMPI_Zrecv` in a turn returns with a message of the peer. -/
theorem InScript.takes {ret : Int} {turn : ℕ} {peer : Fin nprocs}
    (script : InScript setting rank node thread) (own : action.isProcess = true)
    (follows : setting.Follows rank thread node action) (step : Node.Step node action node')
    (returned : node'.pc = .idle ret) (receiving : thread.stage = .receiving turn)
    (listed : setting.peer rank turn = some peer) : (action.receivedFrom peer).length = 1 := by
  obtain ⟨call, found, returns⟩ := script.returns own follows step returned
  have called := Setting.call_eq_some found
  simp only [receiving] at called
  obtain ⟨q, listed', rfl⟩ := called
  cases listed.symm.trans listed'
  cases returns with
  | zrecv source result payload => simp [Action.receivedFrom]

/-- The buffers handed out grow as the thread passes its calls of `YMPI_Zrecv`. -/
theorem InScript.fetches (script : InScript setting rank node thread)
    (own : action.isProcess = true) (follows : setting.Follows rank thread node action)
    (step : Node.Step node action node') :
    thread.fetches + action.fetched.length = (thread.settle node'.pc).fetches := by
  by_cases idle : ∃ ret, node'.pc = .idle ret
  · obtain ⟨ret, returned⟩ := idle
    obtain ⟨call, found, returns⟩ := script.returns own follows step returned
    have called := Setting.call_eq_some found
    rw [returned]
    change _ = thread.next.fetches
    rw [Thread.next_fetches script.inRange]
    cases stage : thread.stage with
    | sending turn =>
        simp only [stage] at called
        obtain ⟨q, -, rfl⟩ := called
        cases returns with
        | post _ none => rw [none, List.length_nil]
    | flushing =>
        simp only [stage] at called
        subst called
        cases returns with
        | zflush none => rw [none, List.length_nil]
    | receiving turn =>
        simp only [stage] at called
        obtain ⟨q, -, rfl⟩ := called
        cases returns with
        | zrecv source result payload => rfl
    | returning =>
        simp only [stage] at called
        subst called
        cases returns with
        | returned => rfl
        | repostFailed wr => rfl
  · have none : action.fetched = [] := by
      by_contra some
      exact idle (step.fetched_returns some)
    rw [Thread.settle_of_ne fun ret same => idle ⟨ret, same⟩, none, List.length_nil, add_zero]

/-- When `YMPI_Return` has posted all buffers, none is left. -/
theorem InScript.completes (script : InScript setting rank node thread) (proper : node.Proper)
    (own : action.isProcess = true) (follows : setting.Follows rank thread node action)
    (unfailing : ∀ wr, action ≠ .repost wr false) (step : Node.Step node action node') :
    (thread.settle node'.pc).iteration = thread.iteration ∨
      (thread.settle node'.pc).iteration = thread.iteration + 1 ∧
      (thread.settle node'.pc).stage = .sending 1 ∧ node'.fetchedIds = [] := by
  by_cases idle : ∃ ret, node'.pc = .idle ret
  · obtain ⟨ret, returned⟩ := idle
    rw [returned]
    change thread.next.iteration = _ ∨ thread.next.iteration = _ ∧ thread.next.stage = _ ∧ _
    cases stage : thread.stage with
    | returning =>
        obtain ⟨call, found, returns⟩ := script.returns own follows step returned
        have called := Setting.call_eq_some found
        simp only [stage] at called
        subst called
        rw [Thread.next_returning stage]
        cases returns with
        | returned =>
            refine Or.inr ⟨rfl, rfl, ?_⟩
            cases step with
            | returned atReturn performed =>
                obtain ⟨empty, rfl⟩ := Context.returnHead_empty performed proper.minusOne_fetched
                exact empty
        | repostFailed wr => exact absurd rfl (unfailing wr)
    | _ => exact Or.inl (by simp only [Thread.next, stage])
  · rw [Thread.settle_of_ne fun ret same => idle ⟨ret, same⟩]
    exact Or.inl rfl

end Script

/-- What a rank with the thread `thread` has done in the steps `history`. -/
structure Accounts (setting : Setting nprocs) (rank : Fin nprocs) (history : List (Action nprocs))
    (node : Node nprocs) (thread : Thread) : Prop where
  script : InScript setting rank node thread
  unfailing : ∀ wr, Action.repost wr false ∉ history
  fits : ∀ action ∈ history, action.LengthFits
  /-- At most one message to a peer for each call of `YMPI_Zsend` that has begun. -/
  sent : ∀ turn peer, 1 ≤ turn → turn < allputallNumprocs → setting.peer rank turn = some peer →
    (history.flatMap (Action.sentTo peer)).length ≤ (thread.entered node.pc).sends turn
  silent : ∀ other, other ∉ setting.peers rank → history.flatMap (Action.sentTo other) = []
  /-- A message of the peer for each call of `YMPI_Zrecv` that has returned. -/
  received : ∀ turn peer, 1 ≤ turn → turn < allputallNumprocs →
    setting.peer rank turn = some peer →
      thread.takes turn ≤ (history.flatMap (Action.receivedFrom peer)).length
  handedOut : node.fetchedIds.length + (history.flatMap Action.reposted).length = thread.fetches
  /-- The buffers of all iterations that are complete have been given back. -/
  completed : 127 * thread.iteration ≤ (history.flatMap Action.reposted).length

section Accounts

variable {history : List (Action nprocs)} {node node' : Node nprocs} {thread : Thread}
  {action : Action nprocs}

/-- The step sends nothing, takes nothing and moves no buffer. -/
structure Quiet (action : Action nprocs) : Prop where
  posts : ∀ wr, action ≠ .repost wr false
  fits : action.LengthFits
  sent : ∀ dest, action.sentTo dest = []
  received : ∀ source, action.receivedFrom source = []
  fetched : action.fetched = []
  unfetched : action.unfetched = []
  reposted : action.reposted = []

theorem quiet_of_hardware (hardware : action.isProcess = false) : Quiet action := by
  cases action with
  | execute | complete | arrive | land =>
      refine ⟨?_, trivial, fun _ => rfl, fun _ => rfl, rfl, rfl, rfl⟩
      intro wr same
      cases same
  | _ => cases hardware

/-- A step of the HCA changes no account. -/
theorem Accounts.hardware (accounts : Accounts setting rank history node thread)
    (proper : node.Proper) (hardware : action.isProcess = false)
    (step : Node.Step node action node') :
    Accounts setting rank (history ++ [action]) node' thread := by
  have quiet := quiet_of_hardware hardware
  have located := step.pc_eq hardware
  have fetched := step.fetched_ledger proper
  rw [quiet.fetched, quiet.unfetched, List.append_nil, List.nil_append] at fetched
  refine ⟨⟨accounts.script.inRange, ?_⟩, ?_, ?_, ?_, ?_, ?_, ?_, ?_⟩
  · rw [located]
    exact accounts.script.serves
  · intro wr member
    rcases List.mem_append.mp member with earlier | last
    · exact accounts.unfailing wr earlier
    · exact quiet.posts wr (List.mem_singleton.mp last).symm
  · intro other member
    rcases List.mem_append.mp member with earlier | last
    · exact accounts.fits other earlier
    · rw [List.mem_singleton.mp last]
      exact quiet.fits
  · intro turn peer pos bound listed
    rw [List.flatMap_append, List.flatMap_singleton, quiet.sent, List.append_nil, located]
    exact accounts.sent turn peer pos bound listed
  · intro other stranger
    rw [List.flatMap_append, List.flatMap_singleton, quiet.sent, List.append_nil]
    exact accounts.silent other stranger
  · intro turn peer pos bound listed
    rw [List.flatMap_append, List.flatMap_singleton, quiet.received, List.append_nil]
    exact accounts.received turn peer pos bound listed
  · rw [List.flatMap_append, List.flatMap_singleton, quiet.reposted, List.append_nil, ← fetched]
    exact accounts.handedOut
  · rw [List.flatMap_append, List.flatMap_singleton, quiet.reposted, List.append_nil]
    exact accounts.completed

theorem length_sentTo_le (action : Action nprocs) (dest : Fin nprocs) :
    (action.sentTo dest).length ≤ 1 := by
  unfold Action.sentTo
  split
  · split <;> simp
  · exact Nat.zero_le 1

/-- Only a message that is sent has a length to fit. -/
theorem fits_of_sends (fits : ∀ dest, action.sentTo dest ≠ [] → action.LengthFits) :
    action.LengthFits := by
  cases action with
  | post call outcome data =>
      cases call with
      | zsend buffer offset bytes dest =>
          cases outcome with
          | accepted =>
              apply fits dest
              rw [Action.sentTo, if_pos rfl]
              exact List.cons_ne_nil _ _
          | failed err => trivial
          | badWr => trivial
      | write => trivial
      | read => trivial
  | _ => trivial

theorem length_unfetched (posts : ∀ wr, action ≠ .repost wr false) :
    action.unfetched.length = action.reposted.length := by
  cases action with
  | repost wr posted =>
      cases posted with
      | true => rfl
      | false => exact absurd rfl (posts wr)
  | _ => rfl

/-- The SRQ has room for the buffers that `YMPI_Return` posts, so no post fails. -/
theorem posts_succeed {past : List (Action nprocs)}
    (reached : (Node.system nprocs).Reaches past node)
    (follows : setting.Follows rank thread node action) (step : Node.Step node action node')
    (wr : RecvWr) : action ≠ .repost wr false := by
  rintro rfl
  have full := follows.posts wr rfl
  have whole := Node.reaches_length reached rank
  have held : 0 < node.fetchedIds.length := by
    cases step with
    | repostFailed atReturn performed =>
        obtain ⟨bufId, queue, stored, -, -⟩ := Context.returnHead_some performed
        rw [Node.fetchedIds, stored]
        exact Nat.succ_pos _
  have larger : prepostDepth ≤ maxSrqWr := by decide
  rw [Node.occupied] at whole
  omega

/-- The account of the messages sent, after a step of the process. -/
theorem Accounts.sends (accounts : Accounts setting rank history node thread)
    (follows : setting.Follows rank thread node action) (step : Node.Step node action node')
    {turn : ℕ} {peer : Fin nprocs} (pos : 1 ≤ turn) (bound : turn < allputallNumprocs)
    (listed : setting.peer rank turn = some peer) :
    (history.flatMap (Action.sentTo peer)).length + (action.sentTo peer).length ≤
      thread.next.sends turn := by
  have before := accounts.sent turn peer pos bound listed
  by_cases none : action.sentTo peer = []
  · rw [none, List.length_nil, add_zero]
    exact before.trans (Thread.entered_sends_le_next pos node.pc)
  · obtain ⟨⟨ret, idle⟩, -, turn', inside, sending, listed'⟩ :=
      accounts.script.sends follows step none
    cases Setting.peer_injective inside.2 bound listed' listed
    have passed := (thread.next_sends pos).1
    have single := length_sentTo_le action peer
    rw [idle] at before
    rw [if_pos sending] at passed
    exact (Nat.add_le_add before single).trans passed

/-- The account of the messages taken, after a step of the process. -/
theorem Accounts.takes (accounts : Accounts setting rank history node thread)
    (own : action.isProcess = true) (follows : setting.Follows rank thread node action)
    (step : Node.Step node action node') {turn : ℕ} {peer : Fin nprocs} (pos : 1 ≤ turn)
    (bound : turn < allputallNumprocs) (listed : setting.peer rank turn = some peer) :
    (thread.settle node'.pc).takes turn ≤
      (history.flatMap (Action.receivedFrom peer)).length +
        (action.receivedFrom peer).length := by
  have before := accounts.received turn peer pos bound listed
  by_cases idle : ∃ ret, node'.pc = .idle ret
  · obtain ⟨ret, returned⟩ := idle
    have passed := thread.next_takes_le pos bound
    rw [returned]
    change thread.next.takes turn ≤ _
    split at passed
    next receiving =>
      rw [accounts.script.takes own follows step returned receiving listed]
      omega
    next => omega
  · rw [Thread.settle_of_ne fun ret same => idle ⟨ret, same⟩]
    omega

/-- A step of the process moves the accounts on with its thread. -/
theorem Accounts.process (accounts : Accounts setting rank history node thread)
    (proper : node.Proper) (own : action.isProcess = true)
    (follows : setting.Follows rank thread node action)
    (posts : ∀ wr, action ≠ .repost wr false) (step : Node.Step node action node') :
    Accounts setting rank (history ++ [action]) node' (thread.settle node'.pc) := by
  have fetched := congrArg List.length (step.fetched_ledger proper)
  rw [List.length_append, List.length_append, length_unfetched posts] at fetched
  have passed := accounts.script.fetches own follows step
  have before := accounts.handedOut
  have handedOut : node'.fetchedIds.length +
      ((history ++ [action]).flatMap Action.reposted).length =
        (thread.settle node'.pc).fetches := by
    rw [List.flatMap_append, List.flatMap_singleton, List.length_append]
    omega
  refine ⟨accounts.script.goesOn follows step, ?_, ?_, ?_, ?_, ?_, handedOut, ?_⟩
  · intro wr member
    rcases List.mem_append.mp member with earlier | last
    · exact accounts.unfailing wr earlier
    · exact posts wr (List.mem_singleton.mp last).symm
  · intro other member
    rcases List.mem_append.mp member with earlier | last
    · exact accounts.fits other earlier
    · rw [List.mem_singleton.mp last]
      exact fits_of_sends fun _ sent => (accounts.script.sends follows step sent).2.1
  · intro turn peer pos bound listed
    rw [List.flatMap_append, List.flatMap_singleton, List.length_append, Thread.settle_entered]
    exact accounts.sends follows step pos bound listed
  · intro other stranger
    rw [List.flatMap_append, List.flatMap_singleton, accounts.silent other stranger,
      List.nil_append]
    by_contra sent
    obtain ⟨-, -, turn, inside, -, listed⟩ := accounts.script.sends follows step sent
    exact stranger (Setting.mem_peers.mpr ⟨turn, inside, listed⟩)
  · intro turn peer pos bound listed
    rw [List.flatMap_append, List.flatMap_singleton, List.length_append]
    exact accounts.takes own follows step pos bound listed
  · have earlier := accounts.completed
    rcases accounts.script.completes proper own follows posts step with
      same | ⟨iteration, stage, empty⟩
    · rw [same, List.flatMap_append, List.length_append]
      omega
    · rw [empty, List.length_nil, Thread.fetches, iteration, stage] at handedOut
      rw [iteration]
      omega

/-- **Accounts of a rank.** They hold in every state that the rank reaches. -/
theorem reaches_accounts
    (reached : (rankSystem setting rank).Reaches history (node, thread)) :
    Accounts setting rank history node thread := by
  refine reached.induction (motive := fun history state =>
    Accounts setting rank history state.1 state.2) ?_ ?_
  · intro start initial
    have began := initial.thread
    have started := initial.started
    refine ⟨⟨?_, Or.inl ⟨0, started.pc_eq⟩⟩, by simp, by simp, by simp, by simp, ?_, ?_, ?_⟩
    · rw [began]
      exact ⟨le_rfl, by decide⟩
    · rw [began]
      exact fun _ _ _ _ _ => Nat.zero_le _
    · rw [began, started.fetched_eq]
      rfl
    · rw [began]
      exact Nat.zero_le _
  · rintro earlier ⟨before, thread⟩ action ⟨after, thread'⟩ reaches accounts step
    obtain ⟨setup, ready, -⟩ := reaches_setup reaches
    have proper := Node.reaches_proper ready
    cases step with
    | process own follows moves =>
        exact accounts.process proper own follows (posts_succeed ready follows moves) moves
    | hardware idle moves => exact accounts.hardware proper idle moves

end Accounts

end Ympi.AllPutAll
