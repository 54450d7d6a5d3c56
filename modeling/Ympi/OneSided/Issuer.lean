import Ympi.OneSided.Program

/-! # What holds of the issuer at any time

The issuer is between its calls, posts to the target, or flushes. It has requests for the target
only, each of which the target permits and has its effect, and no completion that is not one of
them; so every throttle loop that it enters makes room in the send queue, no post is refused, and
no call ends the process.
-/

namespace Ympi.OneSided

open LinkedList Foundation Messaging Clients

variable {nprocs : ℕ}

/-- The registrations of the target permit the request. -/
def Permitted (rights : List Mr) (posted : Posted) : Prop :=
  match posted.wr.opcode with
  | .send => False
  | .rdmaWrite => permitsWrite rights posted.wr.rkey posted.wr.remoteAddr posted.data.length
  | .rdmaRead => permitsRead rights posted.wr.rkey posted.wr.remoteAddr posted.wr.length

/-- Where the process of the issuer is. -/
inductive Located (target : Fin nprocs) (pc : Pc nprocs) : Prop where
  | between {ret : Int} : pc = .idle ret → Located target pc
  | posting {call : PostCall nprocs} :
      call.dest = target → pc.Serves (.post call) → Located target pc
  | flushing : pc.Serves .zflush → Located target pc

/-- What holds of the node of the issuer. -/
structure Issuing (program : Program nprocs) (node : Node nprocs) : Prop where
  running : ∀ halt batch, node.pc ≠ .halted halt batch
  located : Located program.target node.pc
  elsewhere : ∀ peer, peer ≠ program.target →
    node.sendQueue peer = [] ∧ node.executed peer = []
  permitted : ∀ posted ∈ node.sendQueue program.target, Permitted program.rights posted
  effected : ∀ executed ∈ node.executed program.target, executed.done = true
  settles : ∀ wc ∈ node.unhandled, wc.status = .success ∧ wc.isSendTo program.target = true
  bounded : node.Bounded
  linked : node.ctx.qps.qpList program.target ≠ none

namespace Access

variable {target : Fin nprocs} {rights : List Mr} {access : Access} {call : PostCall nprocs}

theorem call_eq_post (named : access.call target = .post call) (fits : access.Fits rights) :
    call.dest = target ∧ call.InBounds := by
  cases access with
  | write =>
      cases named
      exact ⟨rfl, fits.1⟩
  | read =>
      cases named
      exact ⟨rfl, fits.1⟩
  | flush => cases named

/-- The number of bytes that a request describes is the number that its caller named. -/
theorem length_sgList {wr : SendWr} {buffer : RdmaBuffer} {offset bytes : ℕ}
    (listed : wr.sgList = Context.sgList buffer offset bytes) (short : bytes < 2 ^ 32) :
    wr.length = bytes := by
  unfold SendWr.length
  rw [listed, Context.sgList]
  by_cases empty : bytes = 0
  · rw [if_pos empty, empty]
  · simp only [if_neg empty]
    exact Nat.mod_eq_of_lt short

/-- The target permits the requests of a program. -/
theorem permitted_wr (named : access.call target = .post call) (fits : access.Fits rights)
    (ctx : Context nprocs) (mem : ℕ → UInt8) :
    Permitted rights ⟨call.wr ctx, (call.wr ctx).gather mem⟩ := by
  cases access with
  | write localSrc offset bytes rkey destPtr =>
      cases named
      obtain ⟨-, -, short, permits⟩ := fits
      have gathered : (ctx.writeWr localSrc offset bytes target rkey destPtr).gather mem = _ :=
        SendWr.gather_sgList rfl short mem
      simp only [PostCall.wr, gathered]
      rw [Permitted]
      simp only [Context.writeWr, length_readBlock]
      exact permits
  | read localDst offset bytes rkey srcPtr =>
      cases named
      obtain ⟨-, -, short, permits⟩ := fits
      have long : (Context.readWr localDst offset bytes target rkey srcPtr).length = bytes :=
        length_sgList rfl short
      rw [Permitted]
      simp only [PostCall.wr, Context.readWr] at long ⊢
      rwa [long]
  | flush => cases named

/-- A process that posts makes the call of the program. -/
theorem Begins.eq_post {node : Node nprocs} {outcome : PostOutcome} {data : List UInt8}
    (begins : access.Begins target node (.post call outcome data)) :
    access.call target = .post call := by
  cases begins with
  | starts starts =>
      generalize access.call target = named at starts
      cases starts with
      | post => rfl

/-- A process that flushes makes the call of the program. -/
theorem Begins.eq_flush {node : Node nprocs} (begins : access.Begins target node .zflush) :
    access = .flush := by
  cases begins with
  | starts starts =>
      cases access with
      | write | read => cases starts
      | flush => rfl

end Access

section Steps

variable {program : Program nprocs} {node node' : Node nprocs} {action : Action nprocs}
  {todo : List Access} {history : List (Action nprocs)}

/-- The completions that the issuer waits for settle requests to the target. -/
theorem Issuing.served (issuing : Issuing program node)
    (follows : program.Follows todo node action) (step : Node.Step node action node') :
    node.ThrottleServed action node' := by
  intro dest polling
  have same : dest = program.target := by
    rcases issuing.located with idle | ⟨named, serves⟩ | serves
    · rw [polling] at idle
      cases idle
    · rw [polling] at serves
      cases serves with
      | polling own =>
          cases own
          exact named
    · rw [polling] at serves
      cases serves with
      | polling own => cases own
  subst same
  cases step with
  | @poll loop batch rest located splits =>
      change batch.length = 0 ∨
        0 < (node.cq.take batch.length).countP (Wc.isSendTo program.target)
      rw [splits, List.take_left]
      refine batch.length.eq_zero_or_pos.imp id ?_
      intro some
      have all : batch.countP (Wc.isSendTo program.target) = batch.length := by
        rw [List.countP_eq_length]
        intro wc member
        refine (issuing.settles wc ?_).2
        rw [Node.unhandled, splits]
        exact List.mem_append_right _ (List.mem_append_left _ member)
      rwa [all]
  | pollError => exact absurd rfl follows.polls
  | _ => trivial

/-- The computation that comes next does not end the process. -/
theorem Issuing.not_halt {halt : Halt} (issuing : Issuing program node)
    (listed : ∀ access ∈ todo, access.Fits program.rights)
    (follows : program.Follows todo node (.halt halt)) : ¬ Node.Step node (.halt halt) node' := by
  intro step
  cases step with
  | halt fails =>
      cases fails with
      | post idle failed =>
          obtain ⟨access, rest, same, begins⟩ := follows.enters _ idle
          cases begins with
          | starts starts =>
              generalize access.call program.target = named at starts
              cases starts
          | abort named aborts =>
              obtain ⟨dest, inside⟩ :=
                Access.call_eq_post named (listed access (by rw [same]; exact List.mem_cons_self))
              apply PostCall.perform_ne_error inside _ aborts
              rw [dest]
              exact issuing.linked
      | recv atHead =>
          rcases issuing.located with idle | ⟨-, serves⟩ | serves
          · rw [atHead] at idle
            cases idle
          all_goals
            rw [atHead] at serves
            cases serves with
            | head own => cases own
      | @handle loop wc rest _ handling failed =>
          have waiting : wc ∈ node.unhandled := by
            rw [Node.unhandled, handling]
            exact List.mem_cons_self
          obtain ⟨successful, isSend⟩ := issuing.settles wc waiting
          cases (Context.processWc_send successful isSend).symm.trans failed
      | giveBack atReturn =>
          rcases issuing.located with idle | ⟨-, serves⟩ | serves
          · rw [atReturn] at idle
            cases idle
          all_goals
            rw [atReturn] at serves
            cases serves.eq_giveBack

/-- There is room for a post, so it is accepted. -/
theorem Issuing.accepted {call : PostCall nprocs} {outcome : PostOutcome} {data : List UInt8}
    (issuing : Issuing program node) (reached : (Node.system nprocs).Reaches history node)
    (follows : program.Follows todo node (.post call outcome data))
    (step : Node.Step node (.post call outcome data) node') : outcome = .accepted := by
  by_contra refused
  obtain ⟨ret, idle⟩ := post_idle step
  have full := follows.accepts call outcome data rfl refused
  have below := issuing.bounded.below (Node.not_throttles_idle idle call.dest)
  have counted := Node.reaches_qpPending reached call.dest
  omega

/-- Where the issuer is after a step of its process. -/
theorem Issuing.located_step (issuing : Issuing program node)
    (listed : ∀ access ∈ todo, access.Fits program.rights)
    (follows : program.Follows todo node action) (step : Node.Step node action node')
    (running : ∀ halt, action ≠ .halt halt) : Located program.target node'.pc := by
  rcases issuing.located with ⟨idle⟩ | ⟨named, serves⟩ | serves
  · obtain ⟨access, rest, same, begins⟩ := follows.enters _ idle
    cases begins with
    | abort => exact absurd rfl (running _)
    | starts starts =>
        rcases step.starts_serves starts with ⟨ret, returned⟩ | inside
        · exact .between returned
        · have fits := listed access (by rw [same]; exact List.mem_cons_self)
          cases named : access.call program.target with
          | post call =>
              rw [named] at inside
              exact .posting (Access.call_eq_post named fits).1 inside
          | zflush =>
              rw [named] at inside
              exact .flushing inside
          | zrecv | giveBack => cases access <;> cases named
  · exact (step.serves serves).elim .between (.posting named)
  · exact (step.serves serves).elim .between .flushing

/-- A process executes nothing itself. -/
theorem executed_eq (own : action.isProcess = true) (step : Node.Step node action node') :
    node'.executed = node.executed := by
  cases step with
  | execute | complete => cases own
  | _ => rfl

/-- A step of the process. -/
theorem Issuing.process (issuing : Issuing program node)
    (listed : ∀ access ∈ todo, access.Fits program.rights) (own : action.isProcess = true)
    (follows : program.Follows todo node action) (step : Node.Step node action node') :
    Issuing program node' := by
  have running (halt : Halt) : action ≠ .halt halt := by
    rintro rfl
    exact issuing.not_halt listed follows step
  have accepts {peer : Fin nprocs} {posted : Posted} (new : posted ∈ node.accepted peer action) :
      peer = program.target ∧ Permitted program.rights posted := by
    obtain ⟨call, data, rfl, dest, rfl⟩ := Node.accepted_origin new
    obtain ⟨ret, idle⟩ := post_idle step
    obtain ⟨access, rest, same, begins⟩ := follows.enters ret idle
    have fits := listed access (by rw [same]; exact List.mem_cons_self)
    have named := begins.eq_post
    exact ⟨dest.symm.trans (Access.call_eq_post named fits).1,
      Access.permitted_wr named fits node.ctx node.mem⟩
  refine ⟨?_, issuing.located_step listed follows step running, ?_, ?_, ?_, ?_,
    step.bounded (issuing.served follows step) issuing.bounded, ?_⟩
  · intro halt batch halted
    rcases halted_origin step halted with ended | failed | earlier
    · exact running halt ended
    · exact follows.polls failed
    · exact issuing.running halt batch earlier
  · intro peer apart
    apply queues_empty step _ (issuing.elsewhere peer apart)
    rw [List.eq_nil_iff_forall_not_mem]
    intro posted new
    exact apart (accepts new).1
  · intro posted member
    have origin : posted ∈ node.sendQueue program.target ++
        node.accepted program.target action := by
      rw [step.sendQueue_ledger]
      exact List.mem_append_right _ member
    rcases List.mem_append.mp origin with earlier | new
    · exact issuing.permitted posted earlier
    · exact (accepts new).2
  · rw [executed_eq own step]
    exact issuing.effected
  · intro wc member
    have origin : wc ∈ node.unhandled ++ node.produced action := by
      rw [step.unhandled_ledger]
      exact List.mem_append_right _ member
    rcases List.mem_append.mp origin with waiting | new
    · exact issuing.settles wc waiting
    · cases action with
      | complete | arrive => cases own
      | _ => cases new
  · rw [step.qps_eq]
    exact issuing.linked

/-- An executed request completes. -/
theorem Issuing.complete {peer : Fin nprocs} {executed : Executed} (issuing : Issuing program node)
    (formed : node.Formed) (step : Node.Step node (.complete peer executed .success) node') :
    Issuing program node' := by
  have bounded := step.bounded (fun _ _ => trivial) issuing.bounded
  have linked : node'.ctx.qps.qpList program.target ≠ none := by
    rw [step.qps_eq]
    exact issuing.linked
  have emptied (peer : Fin nprocs) (apart : peer ≠ program.target) :=
    queues_empty step rfl (issuing.elsewhere peer apart)
  cases step with
  | @complete _ front back _ qpNum _ splits paired =>
      have same : peer = program.target := by
        by_contra apart
        have none := (issuing.elsewhere peer apart).2
        rw [splits] at none
        simp at none
      subst same
      refine ⟨issuing.running, issuing.located, emptied, issuing.permitted, ?_, ?_, bounded,
        linked⟩
      · intro other member
        simp only [Function.update_self] at member
        apply issuing.effected other
        rw [splits]
        rcases List.mem_append.mp member with before | behind
        · exact List.mem_append_left _ before
        · exact List.mem_append_right _ (List.mem_cons_of_mem _ behind)
      · intro wc member
        rcases List.mem_append.mp member with polled | queued
        · exact issuing.settles wc (List.mem_append_left _ polled)
        · rcases List.mem_append.mp queued with earlier | new
          · exact issuing.settles wc (List.mem_append_right _ earlier)
          · have addressed := formed.executed program.target executed (by rw [splits]; simp)
            rw [List.mem_singleton.mp new]
            exact ⟨rfl, by simp [Wc.isSendTo, addressed.tag, addressed.id]⟩

/-- The oldest request has its effect. -/
theorem Issuing.execute {posted : Posted} {fetched : List UInt8} (issuing : Issuing program node)
    (step : Node.Step node (.execute program.target posted true fetched) node') :
    Issuing program node' := by
  have bounded := step.bounded (fun _ _ => trivial) issuing.bounded
  have emptied (peer : Fin nprocs) (apart : peer ≠ program.target) :=
    queues_empty step rfl (issuing.elsewhere peer apart)
  cases step with
  | @execute _ _ rest _ _ queued =>
      refine ⟨issuing.running, issuing.located, emptied, ?_, ?_, issuing.settles, bounded,
        issuing.linked⟩
      · intro other member
        simp only [Function.update_self] at member
        apply issuing.permitted other
        rw [queued]
        exact List.mem_cons_of_mem _ member
      · intro other member
        simp only [Function.update_self] at member
        rcases List.mem_append.mp member with earlier | last
        · exact issuing.effected other earlier
        · rw [List.mem_singleton.mp last]

/-- The bytes of a read are put in place. -/
theorem Issuing.bring {mem : ℕ → UInt8} (issuing : Issuing program node) :
    Issuing program { node with mem := mem } :=
  ⟨issuing.running, issuing.located, issuing.elsewhere, issuing.permitted, issuing.effected,
    issuing.settles, issuing.bounded, issuing.linked⟩

end Steps

end Ympi.OneSided
