import Ympi.Collective.Rounds
import Ympi.Messaging.ErrorReports
import Ympi.Messaging.HeldBuffers

/-! # Errors that a collective reports

Both variants of the all-to-all ignore what `YMPI_Write` returns and return 0 from the
last barrier on, so a call that returns has reported nothing. What can fail in a call
that returns is a post of the loop, or a poll of a throttle loop.
-/

namespace Ympi.Collective

open LinkedList Foundation Messaging

variable {nprocs : ℕ} {setting : Setting nprocs}

/-- The `return 0` at the end of both variants. -/
def returnStatus : Int := 0

namespace Event

variable (rank : Fin setting.numprocs)

/-- A verbs call that `rank` makes fails. -/
def fails : Event setting → Bool
  | .write actor _ outcome => actor = rank ∧ outcome ≠ .accepted
  | .run (.act actor action) => actor = setting.worldRank rank ∧ action.fails
  | _ => false

/-- A failure after which the collective goes on: a refused post of the loop, or a failed
poll, which only a throttle loop survives. -/
def swallows : Event setting → Bool
  | .write actor _ outcome => actor = rank ∧ outcome ≠ .accepted
  | .run (.act actor action) => actor = setting.worldRank rank ∧ action.isPollError
  | _ => false

end Event

variable {state state' : State setting} {event : Event setting} {rank : Fin setting.numprocs}

/-- The rank is in a call of the collective, and not in `YMPID_Return`. -/
structure State.Calling (state : State setting) (rank : Fin setting.numprocs) : Prop where
  inside : (state.threads rank).stage ≠ .outside
  elsewhere : (state.node rank).pc ≠ .returning

/-- Only a call of `YMPI_Return` enters the loop of `YMPID_Return`. -/
theorem not_returning {cluster cluster' : Cluster nprocs} {label : Label nprocs}
    {actor : Fin nprocs} (step : Cluster.Step cluster label cluster')
    (elsewhere : (cluster actor).pc ≠ .returning) (other : label ≠ .act actor .giveBack) :
    (cluster' actor).pc ≠ .returning := by
  rcases step.node_cases actor with ⟨action, rfl, own⟩ | ⟨execution, network⟩
  · intro returning
    rcases own.returning_origin returning with before | gives
    · exact elsewhere before
    · subst gives
      exact other rfl
  · refine execution.invariant (motive := fun node => node.pc ≠ .returning) ?_ elsewhere
    intro before action member after moved earlier returning
    rcases moved.returning_origin returning with still | gives
    · exact earlier still
    · subst gives
      cases network _ member

/-- A rank in a call leaves it only from the barrier. -/
theorem State.ThreadEffect.stays_inside {thread : Thread}
    (effect : state.ThreadEffect rank event thread)
    (inside : (state.threads rank).stage ≠ .outside) (stays : event ≠ .leave rank) :
    thread.stage ≠ .outside := by
  cases effect with
  | stays => exact inside
  | enters outside => exact absurd outside inside
  | moves located next =>
      cases next with
      | leave => exact absurd rfl stays
      | _ => simp

namespace Step

/-- In a call of the collective a process is busy with the library calls of the collective. -/
theorem run_busy {actor : Fin nprocs} {action : Action nprocs}
    (step : Step state (.run (.act actor action)) state')
    (inside : (state.threads rank).stage ≠ .outside) (own : actor = setting.worldRank rank) :
    Node.Busy (state.node rank) action (state'.node rank) := by
  subst own
  cases step with
  | run acts permitted =>
      intro process
      rcases (permitted.2 rank rfl).1 process with outside | busy
      · exact absurd outside inside
      · exact busy

/-- In a call of the collective a process starts no other calls. -/
theorem calling (step : Step state event state') (calling : state.Calling rank)
    (stays : event ≠ .leave rank) : state'.Calling rank := by
  refine ⟨(step.thread_effect rank).stays_inside calling.inside stays, ?_⟩
  cases step with
  | @enterFirst actor _ _ _ outside =>
      have apart : setting.worldRank rank ≠ setting.worldRank actor := by
        intro same
        rw [setting.distinct same] at calling
        exact calling.inside outside
      change (Function.update state.cluster _ _ (setting.worldRank rank)).pc ≠ _
      rw [Function.update_of_ne apart]
      exact calling.elsewhere
  | enterAgain | gather | arrive | leave | join => exact calling.elsewhere
  | write _ _ _ _ acts => exact not_returning acts calling.elsewhere (by simp)
  | fail _ _ _ _ _ acts => exact not_returning acts calling.elsewhere (by simp)
  | copy _ acts => exact not_returning acts calling.elsewhere (by simp)
  | flush _ acts => exact not_returning acts calling.elsewhere (by simp)
  | run acts permitted =>
      apply not_returning acts calling.elsewhere
      rintro rfl
      obtain ⟨ret, idle⟩ := acts.own.2.giveBack_idle
      exact (Step.run acts permitted).run_busy calling.inside rfl rfl ret idle

/-- What fails for a process in a call of the collective is a post of the loop or a poll. -/
theorem fails_eq (step : Step state event state') (calling : state.Calling rank) :
    event.fails rank = event.swallows rank := by
  cases event with
  | run label =>
      cases label with
      | act actor action =>
          by_cases own : actor = setting.worldRank rank
          · have busy := step.run_busy calling.inside own
            subst own
            cases step with
            | run acts =>
                simp only [Event.fails, Event.swallows]
                rw [acts.own.2.fails_eq calling.elsewhere busy]
          · simp [Event.fails, Event.swallows, own]
      | _ => rfl
  | _ => rfl

end Step

/-- A call of the collective begins with the rank between its library calls. -/
theorem Step.enter_calling (step : Step state (.enter rank) state') : state'.Calling rank := by
  cases step with
  | enterFirst _ _ idle =>
      refine ⟨by simp [State.withThread], ?_⟩
      simp [State.node, idle]
  | enterAgain _ idle =>
      refine ⟨by simp [State.withThread], ?_⟩
      simp [State.node, State.withThread, idle]

/-- Along a call of the collective, what fails is what it swallows. -/
theorem execution_calling {mid last : State setting} {events : List (Event setting)}
    (course : (system setting).Execution mid events last) (calling : mid.Calling rank)
    (inside : .leave rank ∉ events) :
    last.Calling rank ∧ ∀ event ∈ events, event.fails rank = event.swallows rank := by
  induction course with
  | refl =>
      refine ⟨calling, ?_⟩
      intro event member
      cases member
  | @snoc now target events event _ step ih =>
      obtain ⟨still, same⟩ := ih fun member => inside (List.mem_append_left _ member)
      have stays : event ≠ .leave rank := by
        rintro rfl
        exact inside (List.mem_append_right _ List.mem_cons_self)
      exact ⟨Step.calling step still stays, Node.forall_snoc same (Step.fails_eq step still)⟩

/-- **Reported errors of a collective.** A call that returns has reported no failure, so
none must have happened: neither was a post of the loop refused nor did a poll fail. -/
theorem collective_reports_iff {mid last after : State setting} {events : List (Event setting)}
    (enters : Step state (.enter rank) mid)
    (course : (system setting).Execution mid events last) (inside : .leave rank ∉ events)
    (_leaves : Step last (.leave rank) after) :
    ((∃ event ∈ events, event.fails rank = true) → returnStatus ≠ 0) ↔
      ∀ event ∈ events, event.swallows rank = false := by
  have same := (execution_calling course enters.enter_calling inside).2
  refine ⟨?_, ?_⟩
  · intro reports event member
    rw [← same event member]
    by_contra failed
    exact reports ⟨event, member, Bool.eq_true_of_not_eq_false failed⟩ rfl
  · rintro unswallowed ⟨event, member, failed⟩
    rw [same event member, unswallowed event member] at failed
    cases failed

section Runs

/-- The post of the last write of `rank` is refused; the rank copies its own block,
finds nothing to wait for and enters the barrier. -/
theorem State.Ready.refused_run {target : Fin setting.numprocs} (ready : state.Ready rank target)
    (coordinated : state.Coordinated) (stage : (state.threads rank).stage = .writing target)
    (apart : target ≠ rank) (last : (target + 1) % setting.numprocs = rank) :
    ∃ call final, (system setting).Execution state
        [.write rank call (.failed 12), .copy rank, .flush rank,
          .run (.act (setting.worldRank rank) (.test .flush)), .arrive rank] final ∧
      final.threads = Function.update state.threads rank { state.threads rank with
        stage := .barrier } ∧
      KeepsButMemory state.cluster final.cluster := by
  have started := ready.started
  obtain ⟨-, -, named⟩ := State.writing_tables coordinated stage target
  obtain ⟨buffer, found, inside⟩ := ready.sendable
  let call : PostCall nprocs := setting.writeCall rank (state.threads rank).statics buffer target
    (setting.worldRank target)
  have performed : call.perform (state.node rank).ctx (.failed 12) =
      .ok ((state.node rank).ctx, .idle (-1)) := by
    change (if Context.inBounds buffer _ _ then _ else _) = _
    rw [if_pos inside, Context.postSend, if_neg ready.present]
  have posts := Node.Step.postRefused started.pc_eq (by simp) performed
  let refused : State setting := { state.withThread rank { state.threads rank with
      stage := .writing rank } with
    cluster := Function.update state.cluster (setting.worldRank rank) { state.node rank with
      pc := .idle (-1) } }
  have write : Step state (.write rank call (.failed 12)) refused := by
    have step := Step.write stage (fun same => apart (Fin.ext same)) found named (.act rfl posts)
    rw [last] at step
    exact step
  have atRefused : refused.node rank = { state.node rank with pc := .idle (-1) } :=
    Function.update_self ..
  have copies := @copy_step _ _ refused rank (-1) (by simp [refused, State.withThread])
    (by rw [atRefused])
  let copied : State setting := { refused.withThread rank { refused.threads rank with
      stage := .copied } with
    cluster := Function.update refused.cluster (setting.worldRank rank) { refused.node rank with
      mem := setting.copyOwn rank (refused.node rank).mem } }
  have atCopied : copied.node rank = { refused.node rank with
      mem := setting.copyOwn rank (refused.node rank).mem } := Function.update_self ..
  let waiting : Node nprocs := { copied.node rank with pc := .head .flush }
  let flushing : State setting := { copied.withThread rank { copied.threads rank with
      stage := .flushing } with
    cluster := Function.update copied.cluster (setting.worldRank rank) waiting }
  have atIdle : (copied.node rank).pc = .idle (-1) := by rw [atCopied, atRefused]
  have flush : Step copied (.flush rank) flushing :=
    .flush (by simp [copied, State.withThread]) (.act rfl (.zflush atIdle))
  have atFlushing : flushing.node rank = waiting := Function.update_self ..
  have nothing : ¬ 0 < waiting.ctx.pendingSendWr := by
    simp only [waiting, atCopied, atRefused]
    rw [started.total_eq]
    omega
  have ends : ((Node.system nprocs).restrict Node.InCall).Execution (flushing.node rank)
      [.test .flush] { waiting with pc := .idle 0 } := by
    rw [atFlushing]
    exact .single ⟨.flushEnd rfl nothing, fun ret => by simp [waiting], rfl⟩
  have waited := library_run ends
  have arrives := @Step.arrive _ _ { flushing with
      cluster := Function.update flushing.cluster (setting.worldRank rank)
        { waiting with pc := .idle 0 } } rank 0
    (by simp [flushing, State.withThread]) (by simp [State.node])
  refine ⟨call, _,
    .cons write (.cons copies (.cons flush (waited.append (.single arrives)))), ?_, ?_⟩
  · simp [flushing, copied, refused, State.withThread]
  · intro peer
    by_cases same : peer = setting.worldRank rank
    · subst same
      refine ⟨setting.copyOwn rank (refused.node rank).mem, ?_⟩
      change Function.update flushing.cluster _ _ _ = _
      rw [Function.update_self, ← started.pc_eq]
      simp only [waiting, atCopied, atRefused]
    · refine ⟨(state.cluster peer).mem, ?_⟩
      simp [State.withThread, flushing, copied, refused, same]

/-- A rank leaves the barrier and enters its next call at once. -/
theorem leave_enter (coordinated : state.Coordinated)
    (stage : (state.threads rank).stage = .barrier)
    (all : ∀ peer, state.arrived (setting.worldRank rank) ≤ state.arrived peer)
    (idle : (state.node rank).pc = .idle 0) :
    ∃ outside inside, Step state (.leave rank) outside ∧ Step outside (.enter rank) inside ∧
      inside.threads = Function.update state.threads rank { state.threads rank with
        stage := .writing ((rank + 1) % setting.numprocs)
        calls := (state.threads rank).calls + 1
        entryMem := (state.node rank).mem } ∧
      inside.arrived = state.arrived ∧ inside.cluster = state.cluster := by
  have valid := coordinated.valid rank
  have begun := valid.started (by simp [stage])
  let outside : State setting := state.withThread rank { state.threads rank with stage := .outside }
  have thread : outside.threads rank = { state.threads rank with stage := .outside } :=
    Function.update_self ..
  have enters := @Step.enterAgain _ _ outside rank 0 (by rw [thread]) idle
    (by rw [thread]; exact begun) (by rw [thread]; exact valid.again begun)
  refine ⟨outside, _, .leave stage all, enters, ?_, rfl, rfl⟩
  simp [outside, State.withThread, State.node]

/-- Both ranks of the pair go through a second call, in which both writes are refused, and
the first one returns. -/
theorem pair.refused_call : ∃ (history : List (Event pair)) (state mid last after : State pair)
    (events : List (Event pair)) (call : PostCall 2), (system pair).Reaches history state ∧
      Step state (.enter first) mid ∧ (system pair).Execution mid events last ∧
      .leave first ∉ events ∧ Step last (.leave first) after ∧
      .write first call (.failed 12) ∈ events := by
  obtain ⟨history, start, reached, -, ready, atBarrier⟩ := barrier_run
  have all := arrived_le (reaches_coordinated reached) atBarrier
  have unmoved (before : State pair) : KeepsButMemory before.cluster before.cluster :=
    fun peer => ⟨(before.cluster peer).mem, rfl⟩
  -- Both leave the barrier and enter the next call.
  obtain ⟨outside, mid, leaves, enters, threads, arrived, cluster⟩ :=
    leave_enter (reaches_coordinated reached) (atBarrier first).1 (all first)
      (ready first second).started.pc_eq
  have reached' := (reached.step leaves).step enters
  have waiting : mid.threads second = start.threads second := by
    rw [threads, Function.update_of_ne second_ne_first]
  obtain ⟨outside', both, leaves', enters', threads', -, cluster'⟩ :=
    leave_enter (reaches_coordinated reached') (by rw [waiting]; exact (atBarrier second).1)
      (by rw [arrived]; exact all second)
      (by rw [State.node, cluster]; exact (ready second first).started.pc_eq)
  have reached'' := (reached'.step leaves').step enters'
  have inFirst : both.threads first = mid.threads first := by
    rw [threads', Function.update_of_ne second_ne_first.symm]
  have keeps : KeepsButMemory start.cluster both.cluster := by
    rw [cluster', cluster]
    exact unmoved start
  -- The post of each of them is refused.
  have ready₁ := (ready first second).keep keeps (by rw [inFirst, threads, Function.update_self])
  obtain ⟨call, middle, refused, stages, kept⟩ := ready₁.refused_run
    (reaches_coordinated reached'') (by rw [inFirst, threads, Function.update_self]; rfl)
    second_ne_first rfl
  have inSecond : middle.threads second = both.threads second := by
    rw [stages, Function.update_of_ne second_ne_first]
  have ready₂ := ((ready second first).keep keeps (by
    rw [threads', Function.update_self, waiting])).keep kept (by rw [inSecond])
  have reached₃ := reached''.append refused
  obtain ⟨_, last, refused', stages', -⟩ := ready₂.refused_run
    (reaches_coordinated reached₃) (by rw [inSecond, threads', Function.update_self]; rfl)
    second_ne_first.symm rfl
  have together (rank : Fin pair.numprocs) :
      (last.threads rank).stage = .barrier ∧ (last.threads rank).calls = 2 := by
    rcases first_or_second rank with rfl | rfl
    · rw [stages', Function.update_of_ne second_ne_first.symm, stages, Function.update_self,
        inFirst, threads, Function.update_self, (atBarrier first).2]
      exact ⟨rfl, rfl⟩
    · rw [stages', Function.update_self, inSecond, threads', Function.update_self, waiting,
        (atBarrier second).2]
      exact ⟨rfl, rfl⟩
  have returns : Step last (.leave first) _ := .leave (together first).1
    (arrived_le (reaches_coordinated (reached₃.append refused')) together first)
  refine ⟨_, _, mid, last, _, _, call, reached.step leaves, enters,
    .cons leaves' (.cons enters' (refused.append refused')), ?_, returns, ?_⟩
  · simp [second_ne_first.symm]
  · simp

end Runs

/-- **Reported errors.** A run of a messaging call in which something fails does not end in
the return of 0, if and only if no poll of a throttle loop and no post of `YMPI_Return`
fails in it. A call of a collective that returns has returned 0, so nothing may have failed
in it: neither was a post of its loop refused nor did a poll fail. -/
theorem errors_reported_iff :
    (∀ (call : Call nprocs) (before after : Node nprocs) (first : Action nprocs)
      (labels : List (Action nprocs)), Node.CallRun call before first labels after →
        (((∃ action ∈ first :: labels, action.fails = true) → after.pc ≠ .idle 0) ↔
          ∀ action ∈ first :: labels, call.swallows action = false)) ∧
    ∀ (setting : Setting nprocs) (rank : Fin setting.numprocs) (state mid last after : State setting)
      (events : List (Event setting)), Step state (.enter rank) mid →
        (system setting).Execution mid events last → .leave rank ∉ events →
        Step last (.leave rank) after →
          (((∃ event ∈ events, event.fails rank = true) → returnStatus ≠ 0) ↔
            ∀ event ∈ events, event.swallows rank = false) := by
  refine ⟨?_, ?_⟩
  · intro call before after first labels run
    exact run.reports_iff
  · intro setting rank state mid last after events enters course inside leaves
    exact collective_reports_iff enters course inside leaves

/-- A process gives its buffer back in a call of `YMPI_Return` whose post fails, and a rank
returns from a collective in which its write was refused. -/
theorem errors_reported_iff_runs :
    (∃ (before after : Node 2) (wr : RecvWr),
      Node.CallRun .giveBack before .giveBack [.repost wr false] after ∧
        (((∃ action ∈ [(.giveBack : Action 2), .repost wr false], action.fails = true) →
            after.pc ≠ .idle 0) ↔
          ∀ action ∈ [(.giveBack : Action 2), .repost wr false],
            Call.giveBack.swallows action = false)) ∧
    ∃ (events : List (Event pair)) (call : PostCall 2),
      .write pair.first call (.failed 12) ∈ events ∧
        (((∃ event ∈ events, event.fails pair.first = true) → returnStatus ≠ 0) ↔
          ∀ event ∈ events, event.swallows pair.first = false) := by
  obtain ⟨-, before, after, wr, -, run, -⟩ := Node.exists_failed_return
  obtain ⟨-, state, mid, last, after', events, call, -, enters, course, inside, leaves, refused⟩ :=
    pair.refused_call
  exact ⟨⟨before, after, wr, run, errors_reported_iff.1 _ _ _ _ _ run⟩,
    events, call, refused, errors_reported_iff.2 _ _ _ _ _ _ _ enters course inside leaves⟩

/-- A call of `YMPI_Return` whose post fails returns 0, and so does a collective in which a
write was refused. -/
theorem errors_swallowed :
    (∃ (history : List (Action 2)) (before after : Node 2) (wr : RecvWr),
      (Node.system 2).Reaches history before ∧
        Node.CallRun .giveBack before .giveBack [.repost wr false] after ∧
        (Action.repost wr false : Action 2).fails = true ∧ after.pc = .idle 0) ∧
    ∃ (history : List (Event pair)) (state mid last after : State pair)
      (events : List (Event pair)) (call : PostCall 2), (system pair).Reaches history state ∧
        Step state (.enter pair.first) mid ∧ (system pair).Execution mid events last ∧
        .leave pair.first ∉ events ∧ Step last (.leave pair.first) after ∧ returnStatus = 0 ∧
        .write pair.first call (.failed 12) ∈ events ∧
        (Event.write pair.first call (.failed 12)).fails pair.first = true := by
  obtain ⟨history, before, after, wr, reached, run, idle⟩ := Node.exists_failed_return
  obtain ⟨history', state, mid, last, after', events, call, reached', enters, course, inside,
    leaves, refused⟩ := pair.refused_call
  exact ⟨⟨history, before, after, wr, reached, run, rfl, idle⟩, history', state, mid, last, after',
    events, call, reached', enters, course, inside, leaves, rfl, refused, by simp [Event.fails]⟩

end Ympi.Collective
