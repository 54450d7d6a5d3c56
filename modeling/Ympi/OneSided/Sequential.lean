import Ympi.OneSided.Issuer

/-! # One-sided programs copy as if in order

The writes of the issuer have their effects in the order of its calls, and so have its reads, but a
write may land before the bytes of an earlier read are in place. A careful program does not see the
difference: the copies that are under way respect each other, so the memories will be those after all
copies, made one after the other, and they are these when a flush returns.
-/

namespace Ympi.OneSided

open LinkedList Foundation Messaging Clients

variable {nprocs : ℕ}

/-- The HCA makes the copy when it executes the request. -/
def Carries (stores : Stores UInt8) : Copy → Posted → Prop
  | .put near far length, posted =>
      posted.wr.opcode = .rdmaWrite ∧ posted.wr.remoteAddr = far ∧
        posted.data = readBlock stores.near near length
  | .get near far length, posted =>
      posted.wr.opcode = .rdmaRead ∧ posted.wr.remoteAddr = far ∧ posted.wr.length = length ∧
        ∀ mem (fetched : List UInt8), fetched.length = length →
          posted.wr.scatter mem fetched = writeBlock mem near fetched

/-- A copy that another one respects is carried as well after the other one. -/
theorem Carries.perform {stores : Stores UInt8} {copy other : Copy} {posted : Posted}
    (carries : Carries stores copy posted) (respects : copy.Respects other) :
    Carries (other.perform stores) copy posted := by
  cases copy with
  | put near far length =>
      obtain ⟨write, addressed, gathered⟩ := carries
      exact ⟨write, addressed, gathered.trans respects.near.symm⟩
  | get near far length => exact carries

theorem Carries.all {stores : Stores UInt8} {other : Copy} {copies : List Copy}
    {queue : List Posted} (carried : List.Forall₂ (Carries stores) copies queue)
    (respects : ∀ copy ∈ copies, copy.Respects other) :
    List.Forall₂ (Carries (other.perform stores)) copies queue := by
  have both := (List.forall₂_and_left copies queue).mpr ⟨respects, carried⟩
  exact both.imp fun _ _ ⟨spared, carries⟩ => carries.perform spared

/-- A read gets the copy. What the target has answered is what it still has. -/
def Brings (stores : Stores UInt8) : Copy → Reading → Prop
  | .put .., _ => False
  | .get near far length, reading =>
      Carries stores (.get near far length) reading.posted ∧
        ∀ bytes, reading.answer = some bytes → bytes = readBlock stores.far far length

theorem Brings.perform {stores : Stores UInt8} {copy other : Copy} {reading : Reading}
    (brings : Brings stores copy reading) (respects : copy.Respects other) :
    Brings (other.perform stores) copy reading := by
  cases copy with
  | put => exact brings.elim
  | get near far length =>
      obtain ⟨carries, answered⟩ := brings
      refine ⟨carries.perform respects, ?_⟩
      intro bytes answer
      exact (answered bytes answer).trans respects.far.symm

theorem Brings.all {stores : Stores UInt8} {other : Copy} {copies : List Copy}
    {reads : List Reading} (reading : List.Forall₂ (Brings stores) copies reads)
    (respects : ∀ copy ∈ copies, copy.Respects other) :
    List.Forall₂ (Brings (other.perform stores)) copies reads := by
  have both := (List.forall₂_and_left copies reads).mpr ⟨respects, reading⟩
  exact both.imp fun _ _ ⟨spared, brings⟩ => brings.perform spared

/-- Reads go into the near store. -/
theorem Brings.isPut_eq {stores : Stores UInt8} {copies : List Copy} {reads : List Reading}
    (reading : List.Forall₂ (Brings stores) copies reads) :
    ∀ copy ∈ copies, copy.isPut = false := by
  induction reading with
  | nil => exact fun copy member => absurd member List.not_mem_nil
  | @cons first reading _ _ brings _ ih =>
      rw [List.forall_mem_cons]
      refine ⟨?_, ih⟩
      cases first with
      | put => exact brings.elim
      | get => rfl

namespace Access

/-- A request carries the copy that its call asks for. -/
theorem exists_carries {target : Fin nprocs} {rights : List Mr} {access : Access}
    {call : PostCall nprocs} (named : access.call target = .post call)
    (fits : access.Fits rights) (ctx : Context nprocs) (stores : Stores UInt8) :
    ∃ copy, access.copies = [copy] ∧
      Carries stores copy ⟨call.wr ctx, (call.wr ctx).gather stores.near⟩ := by
  cases access with
  | write localSrc offset bytes rkey destPtr =>
      cases named
      obtain ⟨-, below, short, -⟩ := fits
      refine ⟨_, rfl, rfl, rfl, ?_⟩
      have gathered : (ctx.writeWr localSrc offset bytes target rkey destPtr).gather stores.near =
          _ := SendWr.gather_sgList rfl short stores.near
      rwa [sizeT, Nat.mod_eq_of_lt below] at gathered
  | read localDst offset bytes rkey srcPtr =>
      cases named
      obtain ⟨-, below, short, -⟩ := fits
      refine ⟨_, rfl, rfl, rfl, length_sgList rfl short, ?_⟩
      intro mem fetched long
      simp only [PostCall.wr, Context.readWr, Context.sgList, SendWr.scatter]
      by_cases empty : bytes = 0
      · rw [List.eq_nil_of_length_eq_zero (long.trans empty)]
        simp [empty]
      · simp only [if_neg empty, sizeT, Nat.mod_eq_of_lt below]
  | flush => cases named

end Access

/-- What holds of the ranks that run a program. -/
structure Sound (program : Program nprocs) (cluster : Cluster nprocs) : Prop where
  issuing : Issuing program (cluster program.issuer)
  still : ∀ rank, rank ≠ program.issuer → ∀ peer,
    (cluster rank).sendQueue peer = [] ∧ (cluster rank).executed peer = []
  rights : (cluster program.target).mrs = program.rights

/-- What the HCAs may do beside reading: complete a write, or execute the oldest one. -/
inductive Progresses (program : Program nprocs) (cluster : Cluster nprocs) :
    Label nprocs → Cluster nprocs → Prop where
  | completes {executed : Executed} {node : Node nprocs} :
      executed.posted.wr.opcode ≠ .rdmaRead →
      Node.Step (cluster program.issuer) (.complete program.target executed .success) node →
        Progresses program cluster
          (.act program.issuer (.complete program.target executed .success))
          (Function.update cluster program.issuer node)
  | writes {posted : Posted} {sender receiver : Node nprocs} :
      posted.wr.opcode = .rdmaWrite →
      Node.Step (cluster program.issuer) (.execute program.target posted true []) sender →
      Node.Step (cluster program.target) (.land posted.wr.remoteAddr posted.data) receiver →
        Progresses program cluster (.rdmaWrite program.issuer program.target posted true)
          (Function.update (Function.update cluster program.issuer sender) program.target receiver)

section Steps

variable {program : Program nprocs} {cluster cluster' : Cluster nprocs} {label : Label nprocs}

/-- Only the issuer has requests, and they are for the target. -/
theorem Sound.eq_of_queued (sound : Sound program cluster) {source dest : Fin nprocs}
    {posted : Posted} (queued : posted ∈ (cluster source).sendQueue dest) :
    source = program.issuer ∧ dest = program.target := by
  by_cases own : source = program.issuer
  · subst own
    refine ⟨rfl, ?_⟩
    by_contra apart
    rw [(sound.issuing.elsewhere dest apart).1] at queued
    cases queued
  · rw [(sound.still source own dest).1] at queued
    cases queued

/-- A step of the HCAs and the network is one of these. -/
theorem Sound.progresses (sound : Sound program cluster) (faultless : Faultless label)
    (unread : Unread label) (acts : Cluster.Step cluster label cluster') :
    Progresses program cluster label cluster' := by
  have permitted {source dest : Fin nprocs} {posted : Posted} {done : Bool}
      {fetched : List UInt8} {sender : Node nprocs}
      (sent : Node.Step (cluster source) (.execute dest posted done fetched) sender) :
      source = program.issuer ∧ dest = program.target ∧ Permitted program.rights posted := by
    obtain ⟨rfl, rfl⟩ := sound.eq_of_queued sent.execute_queued
    exact ⟨rfl, rfl, sound.issuing.permitted posted sent.execute_queued⟩
  cases acts with
  | @act rank action node near step =>
      cases action with
      | complete peer executed status =>
          cases (show status = .success from faultless)
          have listed : executed ∈ (cluster rank).executed peer := by
            cases step with
            | complete _ splits =>
                rw [splits]
                simp
          by_cases own : rank = program.issuer
          · subst own
            have same : peer = program.target := by
              by_contra apart
              rw [(sound.issuing.elsewhere peer apart).2] at listed
              cases listed
            subst same
            exact .completes unread step
          · rw [(sound.still rank own peer).2] at listed
            cases listed
      | _ => exact faultless.elim
  | deliver opcode sent =>
      obtain ⟨rfl, rfl, permits⟩ := permitted sent
      rw [Permitted, opcode] at permits
      exact permits.elim
  | writeDone opcode _ sent landed =>
      obtain ⟨rfl, rfl, -⟩ := permitted sent
      rw [Function.update_of_ne program.distinct.symm] at landed
      exact .writes opcode sent landed
  | writeRefused opcode refused sent =>
      obtain ⟨rfl, rfl, permits⟩ := permitted sent
      rw [Permitted, opcode] at permits
      rw [sound.rights] at refused
      exact absurd permits refused
  | readDone => cases unread
  | readRefused opcode refused sent =>
      obtain ⟨rfl, rfl, permits⟩ := permitted sent
      rw [Permitted, opcode] at permits
      rw [sound.rights] at refused
      exact absurd permits refused

/-- A step of the issuer leaves the other ranks as they are. -/
theorem Sound.update (sound : Sound program cluster) {node : Node nprocs}
    (issuing : Issuing program node) :
    Sound program (Function.update cluster program.issuer node) := by
  refine ⟨?_, ?_, ?_⟩
  · rwa [Function.update_self]
  · intro rank apart
    rw [Function.update_of_ne apart]
    exact sound.still rank apart
  · rw [Function.update_of_ne program.distinct.symm]
    exact sound.rights

theorem Sound.hardware (sound : Sound program cluster)
    (formed : (cluster program.issuer).Formed)
    (progresses : Progresses program cluster label cluster') : Sound program cluster' := by
  cases progresses with
  | completes _ step => exact sound.update (sound.issuing.complete formed step)
  | writes _ sent landed =>
      have moved := sound.update (sound.issuing.execute sent)
      refine ⟨?_, ?_, ?_⟩
      · rw [Function.update_of_ne program.distinct]
        exact moved.issuing
      · intro rank apart
        by_cases same : rank = program.target
        · subst same
          rw [Function.update_self]
          cases landed with
          | land => exact sound.still program.target apart
        · rw [Function.update_of_ne same]
          exact moved.still rank apart
      · rw [Function.update_self]
        cases landed with
        | land => exact sound.rights

end Steps

/-- What holds when the copies `made` have been made, the reads for the copies `late` have been sent,
and the requests for the copies `pending` are in the send queue. -/
structure Consistent (program : Program nprocs) (start : Stores UInt8) (state : State nprocs)
    (done : List Access) (made late pending : List Copy) : Prop where
  parts : program.accesses = done ++ state.todo
  turns : Copy.SameTurns (done.flatMap Access.copies) (made ++ (late ++ pending))
  whole : Copy.performAll start (made ++ (late ++ pending)) =
    Copy.performAll start (done.flatMap Access.copies)
  stores : program.memories state.cluster = Copy.performAll start made
  queued : List.Forall₂ (Carries (program.memories state.cluster)) pending
    ((state.cluster program.issuer).sendQueue program.target)
  reading : List.Forall₂ (Brings (program.memories state.cluster)) late state.reads
  permitted : ∀ reading ∈ state.reads, Permitted program.rights reading.posted
  respects : (late ++ pending).Pairwise fun earlier later => later.Respects earlier
  /-- Unless the process is flushing, what is under way has been asked for since the last flush. -/
  recent : (state.cluster program.issuer).pc.Serves .zflush ∨
    ∀ copy ∈ late ++ pending, copy ∈ Access.unflushed done
  executed : state.reads.length ≤
    ((state.cluster program.issuer).executed program.target).countP isRead

section Consistency

variable {program : Program nprocs} {start : Stores UInt8} {state : State nprocs}
  {done : List Access} {made late pending : List Copy} {history : List (Action nprocs)}

/-- Between its calls the issuer has nothing under way from before its last flush. -/
theorem Consistent.recent_of_idle
    (consistent : Consistent program start state done made late pending) {ret : Int}
    (idle : (state.cluster program.issuer).pc = .idle ret) :
    ∀ copy ∈ late ++ pending, copy ∈ Access.unflushed done :=
  consistent.recent.resolve_left fun serves => serves.not_idle ret idle

/-- A process changes no memory. -/
theorem Program.Follows.mem_eq {todo : List Access} {node node' : Node nprocs}
    {action : Action nprocs} (follows : program.Follows todo node action)
    (own : action.isProcess = true) (step : Node.Step node action node') :
    node'.mem = node.mem := by
  cases step with
  | execute | land => cases own
  | store mem idle =>
      obtain ⟨access, rest, -, begins⟩ := follows.enters _ idle
      cases begins with
      | starts starts =>
          generalize access.call program.target = named at starts
          cases starts
  | _ => rfl

/-- The memories depend on those of the issuer and the target. -/
theorem Program.memories_update {node : Node nprocs} {cluster : Cluster nprocs}
    (same : node.mem = (cluster program.issuer).mem) :
    program.memories (Function.update cluster program.issuer node) = program.memories cluster := by
  simp only [memories, Function.update_self, Function.update_of_ne program.distinct.symm, same]

/-- A call of the issuer begins with a request to the target. -/
theorem Consistent.post {call : PostCall nprocs} {data : List UInt8} {node : Node nprocs}
    (consistent : Consistent program start state done made late pending)
    (follows : program.Follows state.todo (state.cluster program.issuer)
      (.post call .accepted data))
    (step : Node.Step (state.cluster program.issuer) (.post call .accepted data) node) :
    ∃ access copy, Consistent program start
      ⟨Function.update state.cluster program.issuer node, state.reads, state.todo.tail⟩
      (done ++ [access]) made late (pending ++ [copy]) := by
  obtain ⟨ret, idle⟩ := post_idle step
  obtain ⟨access, rest, next, begins⟩ := follows.enters ret idle
  have named := begins.eq_post
  have recent := consistent.recent_of_idle idle
  have parts : program.accesses = done ++ access :: rest := by
    rw [consistent.parts, next]
  have fits := program.fits access (by rw [parts]; simp)
  obtain ⟨copy, single, carries⟩ := Access.exists_carries named fits
    (state.cluster program.issuer).ctx (program.memories state.cluster)
  have dest := (Access.call_eq_post named fits).1
  have moved := step.sendQueue_ledger program.target
  simp only [Node.accepted, if_pos dest, Action.launched, List.nil_append] at moved
  have same := Program.memories_update (follows.mem_eq rfl step)
  have asked : (done ++ [access]).flatMap Access.copies =
      done.flatMap Access.copies ++ [copy] := by
    rw [List.flatMap_append, List.flatMap_singleton, single]
  have longer : made ++ (late ++ (pending ++ [copy])) = made ++ (late ++ pending) ++ [copy] := by
    simp only [List.append_assoc]
  refine ⟨access, copy, ?_, ?_, ?_, ?_, ?_, ?_, consistent.permitted, ?_, ?_, ?_⟩
  · rw [parts, next, List.tail_cons, List.append_assoc, List.singleton_append]
  · rw [asked, longer]
    exact consistent.turns.append [copy]
  · rw [asked, longer, Copy.performAll_append, consistent.whole, ← Copy.performAll_append]
  · exact same.trans consistent.stores
  · simp only [same, Function.update_self]
    rw [← moved]
    exact List.rel_append consistent.queued (.cons carries .nil)
  · simp only [same]
    exact consistent.reading
  · rw [← List.append_assoc, List.pairwise_append]
    refine ⟨consistent.respects, List.pairwise_singleton _ _, ?_⟩
    intro earlier member later last
    rw [List.mem_singleton.mp last]
    exact program.careful done access rest parts copy (by rw [single]; exact List.mem_cons_self)
      earlier (recent earlier member)
  · apply Or.inr
    have other : access ≠ .flush := by
      rintro rfl
      cases named
    rw [Access.unflushed_append done other, single, ← List.append_assoc]
    intro asked member
    exact (List.mem_append.mp member).elim
      (fun early => List.mem_append_left _ (recent asked early)) (List.mem_append_right _)
  · simp only [Function.update_self]
    rw [executed_eq rfl step]
    exact consistent.executed

/-- The issuer takes a step that changes no memory and neither posts nor executes anything. -/
theorem Consistent.quiet {action : Action nprocs} {node : Node nprocs} {todo : List Access}
    {done' : List Access} (consistent : Consistent program start state done made late pending)
    (step : Node.Step (state.cluster program.issuer) action node)
    (own : action.isProcess = true) (mem : node.mem = (state.cluster program.issuer).mem)
    (unposted : ∀ call outcome data, action ≠ .post call outcome data)
    (parts : program.accesses = done' ++ todo)
    (asked : done'.flatMap Access.copies = done.flatMap Access.copies)
    (recent : node.pc.Serves .zflush ∨ ∀ copy ∈ late ++ pending, copy ∈ Access.unflushed done') :
    Consistent program start
      ⟨Function.update state.cluster program.issuer node, state.reads, todo⟩
      done' made late pending := by
  have same := Program.memories_update mem
  have moved := step.sendQueue_ledger program.target
  have none : (state.cluster program.issuer).accepted program.target action = [] := by
    cases action with
    | post => exact absurd rfl (unposted _ _ _)
    | _ => rfl
  have unlaunched : action.launched program.target = [] := by
    cases action with
    | execute => cases own
    | _ => rfl
  rw [none, unlaunched, List.append_nil, List.nil_append] at moved
  refine ⟨parts, ?_, ?_, same.trans consistent.stores, ?_, ?_, consistent.permitted,
    consistent.respects, ?_, ?_⟩
  · rw [asked]
    exact consistent.turns
  · rw [asked]
    exact consistent.whole
  · simp only [same, Function.update_self]
    rw [← moved]
    exact consistent.queued
  · simp only [same]
    exact consistent.reading
  · simp only [Function.update_self]
    exact recent
  · simp only [Function.update_self]
    rw [executed_eq own step]
    exact consistent.executed

/-- A flush begins. -/
theorem Consistent.flush {node : Node nprocs}
    (consistent : Consistent program start state done made late pending)
    (follows : program.Follows state.todo (state.cluster program.issuer) .zflush)
    (step : Node.Step (state.cluster program.issuer) .zflush node) :
    Consistent program start
      ⟨Function.update state.cluster program.issuer node, state.reads, state.todo.tail⟩
      (done ++ [.flush]) made late pending := by
  have serves : node.pc.Serves .zflush := by
    cases step with
    | zflush => exact .head rfl
  refine consistent.quiet step rfl (follows.mem_eq rfl step) (by simp) ?_ ?_ (Or.inl serves)
  · cases step with
    | zflush idle =>
        obtain ⟨access, rest, next, begins⟩ := follows.enters _ idle
        cases begins.eq_flush
        rw [consistent.parts, next, List.tail_cons, List.append_assoc, List.singleton_append]
  · rw [List.flatMap_append, List.flatMap_singleton, Access.copies, List.append_nil]

/-- An issuer without requests has nothing under way. -/
theorem Consistent.eq_nil (consistent : Consistent program start state done made late pending)
    (settled : (state.cluster program.issuer).outstanding program.target = 0) :
    late = [] ∧ pending = [] := by
  rw [Node.outstanding] at settled
  have unsent : (state.cluster program.issuer).sendQueue program.target = [] :=
    List.eq_nil_of_length_eq_zero (by omega)
  have completed : (state.cluster program.issuer).executed program.target = [] :=
    List.eq_nil_of_length_eq_zero (by omega)
  have queued := consistent.queued
  have reading := consistent.reading
  have executed := consistent.executed
  rw [completed, List.countP_nil] at executed
  rw [unsent] at queued
  rw [List.eq_nil_of_length_eq_zero (Nat.le_zero.mp executed)] at reading
  exact ⟨List.forall₂_nil_right_iff.mp reading, List.forall₂_nil_right_iff.mp queued⟩

/-- A call of the issuer goes on. When it is a flush that returns, nothing is under way. -/
theorem Consistent.goesOn {action : Action nprocs} {node : Node nprocs}
    (consistent : Consistent program start state done made late pending)
    (reached : (Node.system nprocs).Reaches history (state.cluster program.issuer))
    (follows : program.Follows state.todo (state.cluster program.issuer) action)
    (own : action.isProcess = true)
    (step : Node.Step (state.cluster program.issuer) action node)
    (unposted : ∀ call outcome data, action ≠ .post call outcome data) :
    Consistent program start
      ⟨Function.update state.cluster program.issuer node, state.reads, state.todo⟩
      done made late pending := by
  refine consistent.quiet step own (follows.mem_eq own step) unposted consistent.parts rfl ?_
  rcases consistent.recent with serves | recent
  · rcases step.serves serves with returned | inside
    -- every request has completed, and a read completes only when its bytes are in place
    · apply Or.inr
      obtain ⟨rfl, rfl⟩ := consistent.eq_nil (Node.reaches_settled reached
        (flush_ends serves step follows.polls returned) program.target)
      exact fun copy member => absurd member List.not_mem_nil
    · exact Or.inl inside
  · exact Or.inr recent

/-- A step of the issuer. -/
theorem Consistent.process {action : Action nprocs} {node : Node nprocs}
    (consistent : Consistent program start state done made late pending)
    (sound : Sound program state.cluster)
    (reached : (Node.system nprocs).Reaches history (state.cluster program.issuer))
    (follows : program.Follows state.todo (state.cluster program.issuer) action)
    (own : action.isProcess = true)
    (step : Node.Step (state.cluster program.issuer) action node) :
    ∃ done made late pending, Consistent program start
      ⟨Function.update state.cluster program.issuer node, state.reads, advance state.todo action⟩
      done made late pending := by
  cases action with
  | post call outcome data =>
      cases sound.issuing.accepted reached follows step
      obtain ⟨access, copy, after⟩ := consistent.post follows step
      exact ⟨_, _, _, _, after⟩
  | zflush => exact ⟨_, _, _, _, consistent.flush follows step⟩
  | _ => exact ⟨_, _, _, _, consistent.goesOn reached follows own step (by simp)⟩

/-- The copies under way leave alone what the oldest request in the send queue copies. -/
theorem Consistent.first {copy : Copy} {rest : List Copy}
    (consistent : Consistent program start state done made late (copy :: rest)) :
    (∀ other ∈ late, copy.Respects other) ∧ ∀ other ∈ rest, other.Respects copy := by
  obtain ⟨-, later, across⟩ := List.pairwise_append.mp consistent.respects
  exact ⟨fun other member => across other member copy List.mem_cons_self,
    (List.pairwise_cons.mp later).1⟩

/-- Execution adds to what has been executed. -/
theorem countP_le_of_execute {node node' : Node nprocs} {peer : Fin nprocs} {posted : Posted}
    {fetched : List UInt8} (sent : Node.Step node (.execute peer posted true fetched) node') :
    (node.executed peer).countP isRead ≤ (node'.executed peer).countP isRead := by
  cases sent with
  | execute =>
      simp only [Function.update_self, List.countP_append]
      exact Nat.le_add_right _ _

/-- The oldest request in the send queue carries the first of the copies that wait there. -/
theorem Consistent.exists_next {posted : Posted} {fetched : List UInt8} {node : Node nprocs}
    (consistent : Consistent program start state done made late pending)
    (sent : Node.Step (state.cluster program.issuer)
      (.execute program.target posted true fetched) node) :
    ∃ copy rest, pending = copy :: rest ∧
      Carries (program.memories state.cluster) copy posted ∧
      List.Forall₂ (Carries (program.memories state.cluster)) rest
        (node.sendQueue program.target) := by
  have left := sent.sendQueue_ledger program.target
  simp only [Node.accepted, Action.launched, if_true, List.append_nil,
    List.singleton_append] at left
  have queued := consistent.queued
  rw [left] at queued
  cases queued with
  | cons carries others => exact ⟨_, _, rfl, carries, others⟩

/-- A write lands, and may overtake reads. -/
theorem Consistent.writes {posted : Posted} {sender receiver : Node nprocs}
    (consistent : Consistent program start state done made late pending)
    (opcode : posted.wr.opcode = .rdmaWrite)
    (sent : Node.Step (state.cluster program.issuer) (.execute program.target posted true []) sender)
    (landed : Node.Step (state.cluster program.target) (.land posted.wr.remoteAddr posted.data)
      receiver) :
    ∃ copy rest, Consistent program start
      ⟨Function.update (Function.update state.cluster program.issuer sender) program.target
        receiver, state.reads, state.todo⟩ done (made ++ [copy]) late rest := by
  obtain ⟨copy, rest, rfl, carries, others⟩ := consistent.exists_next sent
  obtain ⟨before, behind⟩ := consistent.first
  cases copy with
  | get =>
      rw [Carries, opcode] at carries
      cases carries.1
  | put near far length =>
      obtain ⟨-, addressed, gathered⟩ := carries
      have here : Function.update (Function.update state.cluster program.issuer sender)
          program.target receiver program.issuer = sender := by
        rw [Function.update_of_ne program.distinct, Function.update_self]
      have moved : program.memories (Function.update (Function.update state.cluster
          program.issuer sender) program.target receiver) =
            (Copy.put near far length).perform (program.memories state.cluster) := by
        have kept := sent.mem_ledger
        have written := landed.mem_ledger
        rw [Action.memory, SendWr.scatter_eq (by simp [opcode])] at kept
        rw [Action.memory, addressed, gathered] at written
        simp only [Program.memories, here, Function.update_self, kept, written]
        rfl
      -- without a fence the write does not wait for the reads that have been sent
      have overtaken (other : Copy) (member : other ∈ late) :
          (Copy.put near far length).Respects other ∧
            (Copy.put near far length).isPut ≠ other.isPut := by
        rw [Brings.isPut_eq consistent.reading other member]
        exact ⟨before other member, by simp [Copy.isPut]⟩
      have fewer : List.Sublist (late ++ rest) (late ++ .put near far length :: rest) :=
        (List.sublist_cons_self _ rest).append_left late
      refine ⟨.put near far length, rest, consistent.parts, ?_, ?_, ?_, ?_, ?_,
        consistent.permitted, consistent.respects.sublist fewer, ?_, ?_⟩
      · exact consistent.turns.trans
          (Copy.sameTurns_overtake (fun other member => (overtaken other member).2) made)
      · rw [← consistent.whole, List.append_assoc, Copy.performAll_append,
          List.singleton_append, Copy.performAll_cons, ← Copy.performAll_overtake overtaken,
          ← Copy.performAll_append]
      · rw [moved, consistent.stores, Copy.performAll_append]
        rfl
      · simp only [moved, here]
        exact Carries.all others behind
      · simp only [moved]
        exact Brings.all consistent.reading fun other member => (before other member).symm
      · simp only [here]
        rw [sent.pc_eq rfl]
        exact consistent.recent.imp id fun recent other member =>
          recent other (fewer.subset member)
      · simp only [here]
        exact consistent.executed.trans (countP_le_of_execute sent)

/-- The request of a read is sent. -/
theorem Consistent.asks {posted : Posted} {fetched : List UInt8} {node : Node nprocs}
    (consistent : Consistent program start state done made late pending)
    (opcode : posted.wr.opcode = .rdmaRead)
    (permitted : Permitted program.rights posted)
    (sent : Node.Step (state.cluster program.issuer) (.execute program.target posted true fetched)
      node) (mem : node.mem = (state.cluster program.issuer).mem) :
    ∃ copy rest, Consistent program start
      ⟨Function.update state.cluster program.issuer node, state.reads ++ [⟨posted, none⟩],
        state.todo⟩ done made (late ++ [copy]) rest := by
  have same := Program.memories_update mem
  obtain ⟨copy, rest, rfl, carries, others⟩ := consistent.exists_next sent
  cases copy with
  | put =>
      rw [Carries, opcode] at carries
      cases carries.1
  | get near far length =>
      have shifted : late ++ [.get near far length] ++ rest =
          late ++ .get near far length :: rest := by
        rw [List.append_assoc, List.singleton_append]
      refine ⟨.get near far length, rest, consistent.parts, ?_, ?_,
        same.trans consistent.stores, ?_, ?_, ?_, ?_, ?_, ?_⟩
      · rw [shifted]
        exact consistent.turns
      · rw [shifted]
        exact consistent.whole
      · simp only [same, Function.update_self]
        exact others
      · simp only [same]
        exact List.rel_append consistent.reading (.cons ⟨carries, by simp⟩ .nil)
      · intro reading member
        rcases List.mem_append.mp member with earlier | last
        · exact consistent.permitted reading earlier
        · rw [List.mem_singleton.mp last]
          exact permitted
      · rw [shifted]
        exact consistent.respects
      · simp only [Function.update_self]
        rw [sent.pc_eq rfl, shifted]
        exact consistent.recent
      · simp only [Function.update_self, List.length_append, List.length_singleton]
        have more := consistent.executed
        cases sent with
        | execute =>
            simp only [Function.update_self, List.countP_append]
            have one : [(⟨posted, true⟩ : Executed)].countP isRead = 1 := by
              simp [isRead, opcode]
            omega

/-- The target answers a read with the bytes that the copy gets. -/
theorem Brings.answer {stores : Stores UInt8} {copies : List Copy} {posted : Posted}
    {front back : List Reading}
    (reading : List.Forall₂ (Brings stores) copies (front ++ ⟨posted, none⟩ :: back)) :
    List.Forall₂ (Brings stores) copies
      (front ++ ⟨posted, some (readBlock stores.far posted.wr.remoteAddr posted.wr.length)⟩ ::
        back) := by
  induction front generalizing copies with
  | nil =>
      cases reading with
      | @cons copy _ _ _ brings later =>
          refine .cons ?_ later
          cases copy with
          | put => exact brings.elim
          | get near far length =>
              obtain ⟨⟨opcode, addressed, long, scatters⟩, -⟩ := brings
              refine ⟨⟨opcode, addressed, long, scatters⟩, ?_⟩
              intro bytes answer
              rw [← Option.some.inj answer, addressed, long]
  | cons first rest ih =>
      cases reading with
      | cons brings later => exact .cons brings (ih later)

/-- The target answers a read. -/
theorem Consistent.answers {posted : Posted} {front back : List Reading}
    (consistent : Consistent program start state done made late pending)
    (listed : state.reads = front ++ ⟨posted, none⟩ :: back) :
    Consistent program start ⟨state.cluster, front ++ ⟨posted, some (readBlock
      (state.cluster program.target).mem posted.wr.remoteAddr posted.wr.length)⟩ :: back,
        state.todo⟩ done made late pending := by
  have reading := consistent.reading
  have permitted := consistent.permitted
  have executed := consistent.executed
  rw [listed] at reading permitted executed
  refine ⟨consistent.parts, consistent.turns, consistent.whole, consistent.stores,
    consistent.queued, Brings.answer reading, ?_, consistent.respects, consistent.recent, ?_⟩
  · intro other member
    rcases List.mem_append.mp member with before | own
    · exact permitted other (List.mem_append_left _ before)
    · rcases List.mem_cons.mp own with rfl | behind
      · exact permitted ⟨posted, none⟩ (by simp)
      · exact permitted other (List.mem_append_right _ (List.mem_cons_of_mem _ behind))
  · rw [List.length_append, List.length_cons] at executed ⊢
    exact executed

/-- The bytes of the oldest read are put in place. -/
theorem Consistent.brings {posted : Posted} {bytes : List UInt8} {rest : List Reading}
    (consistent : Consistent program start state done made late pending)
    (listed : state.reads = ⟨posted, some bytes⟩ :: rest) :
    ∃ copy others, Consistent program start
      ⟨Function.update state.cluster program.issuer { state.cluster program.issuer with
        mem := posted.wr.scatter (state.cluster program.issuer).mem bytes }, rest, state.todo⟩
      done (made ++ [copy]) others pending := by
  have reading := consistent.reading
  have permitted := consistent.permitted
  have executed := consistent.executed
  rw [listed] at reading permitted executed
  cases reading with
  | @cons copy _ others _ brings later =>
      cases copy with
      | put => exact brings.elim
      | get near far length =>
          obtain ⟨⟨-, -, -, scatters⟩, answered⟩ := brings
          have got := answered bytes rfl
          obtain ⟨spared, apart⟩ := List.pairwise_cons.mp consistent.respects
          have shifted : made ++ [.get near far length] ++ (others ++ pending) =
              made ++ (.get near far length :: others ++ pending) := by
            rw [List.append_assoc, List.singleton_append, List.cons_append]
          have moved : program.memories (Function.update state.cluster program.issuer
              { state.cluster program.issuer with
                mem := posted.wr.scatter (state.cluster program.issuer).mem bytes }) =
                (Copy.get near far length).perform (program.memories state.cluster) := by
            simp only [Program.memories, Function.update_self,
              Function.update_of_ne program.distinct.symm]
            rw [scatters _ _ (by rw [got, length_readBlock]), got]
            rfl
          refine ⟨.get near far length, others, consistent.parts, ?_, ?_, ?_, ?_, ?_, ?_, apart,
            ?_, ?_⟩
          · rw [shifted]
            exact consistent.turns
          · rw [shifted]
            exact consistent.whole
          · rw [moved, consistent.stores, Copy.performAll_append]
            rfl
          · simp only [moved, Function.update_self]
            exact Carries.all consistent.queued fun other member =>
              spared other (List.mem_append_right _ member)
          · simp only [moved]
            exact Brings.all later fun other member =>
              spared other (List.mem_append_left _ member)
          · exact fun other member => permitted other (List.mem_cons_of_mem _ member)
          · simp only [Function.update_self]
            exact consistent.recent.imp id fun recent other member =>
              recent other (List.mem_cons_of_mem _ member)
          · simp only [Function.update_self]
            rw [List.length_cons] at executed
            exact (Nat.le_succ _).trans executed

/-- A request completes that is not a read, or a read whose bytes are in place. -/
theorem Consistent.completes {executed : Executed} {node : Node nprocs}
    (consistent : Consistent program start state done made late pending)
    (step : Node.Step (state.cluster program.issuer)
      (.complete program.target executed .success) node)
    (left : state.reads.length ≤ (node.executed program.target).countP isRead) :
    Consistent program start ⟨Function.update state.cluster program.issuer node, state.reads,
      state.todo⟩ done made late pending := by
  have same : program.memories (Function.update state.cluster program.issuer node) =
      program.memories state.cluster := Program.memories_update step.mem_ledger
  have moved := step.sendQueue_ledger program.target
  simp only [Node.accepted, Action.launched, List.append_nil, List.nil_append] at moved
  refine ⟨consistent.parts, consistent.turns, consistent.whole, same.trans consistent.stores, ?_,
    ?_, consistent.permitted, consistent.respects, ?_, ?_⟩
  · simp only [same, Function.update_self]
    rw [← moved]
    exact consistent.queued
  · simp only [same]
    exact consistent.reading
  · simp only [Function.update_self]
    rw [step.pc_eq rfl]
    exact consistent.recent
  · simp only [Function.update_self]
    exact left

/-- A completion that is not one of a read leaves the reads. -/
theorem countP_complete {node node' : Node nprocs} {peer : Fin nprocs} {executed : Executed}
    {status : WcStatus} (step : Node.Step node (.complete peer executed status) node')
    (other : executed.posted.wr.opcode ≠ .rdmaRead) :
    (node'.executed peer).countP isRead = (node.executed peer).countP isRead := by
  cases step with
  | complete _ splits =>
      simp only [Function.update_self, splits, List.countP_append]
      rw [List.countP_cons_of_neg (by simpa [isRead] using other)]

/-- A step of the HCAs and the network. -/
theorem Consistent.hardware {label : Label nprocs} {cluster : Cluster nprocs}
    (consistent : Consistent program start state done made late pending)
    (progresses : Progresses program state.cluster label cluster) :
    ∃ made pending, Consistent program start ⟨cluster, state.reads, state.todo⟩
      done made late pending := by
  cases progresses with
  | completes other step =>
      refine ⟨_, _, consistent.completes step ?_⟩
      rw [countP_complete step other]
      exact consistent.executed
  | writes opcode sent landed =>
      obtain ⟨copy, rest, after⟩ := consistent.writes opcode sent landed
      exact ⟨_, _, after⟩

end Consistency

section Runs

variable {program : Program nprocs} {start : Stores UInt8} {events : List (Event nprocs)}
  {state : State nprocs}

/-- Bytes that are put in place land in the memory, if the request names a place. -/
theorem scatter_execution (node : Node nprocs) (wr : SendWr) (bytes : List UInt8) :
    ∃ history, (Node.system nprocs).Execution node history
      { node with mem := wr.scatter node.mem bytes } := by
  rcases opcode : wr.opcode with _ | _ | _
  · exact ⟨[], by rw [SendWr.scatter_eq (by simp [opcode])]; exact .refl node⟩
  · exact ⟨[], by rw [SendWr.scatter_eq (by simp [opcode])]; exact .refl node⟩
  · cases listed : wr.sgList with
    | none =>
        refine ⟨[], ?_⟩
        simp only [SendWr.scatter, opcode, listed]
        exact .refl node
    | some sge =>
        refine ⟨[.land sge.addr bytes], ?_⟩
        simp only [SendWr.scatter, opcode, listed]
        exact .single (.land sge.addr bytes)

/-- A step of the issuer alone, seen from any rank. -/
theorem update_execution_of_issuer {cluster : Cluster nprocs} {node : Node nprocs}
    {history : List (Action nprocs)}
    (moves : (Node.system nprocs).Execution (cluster program.issuer) history node)
    (rank : Fin nprocs) : ∃ history, (Node.system nprocs).Execution (cluster rank) history
      (Function.update cluster program.issuer node rank) := by
  by_cases own : rank = program.issuer
  · subst own
    rw [Function.update_self]
    exact ⟨history, moves⟩
  · rw [Function.update_of_ne own]
    exact ⟨[], .refl _⟩

/-- A step of the program is an execution of each rank. -/
theorem Program.Step.execution {state' : State nprocs} {event : Event nprocs}
    (step : program.Step state event state') (rank : Fin nprocs) :
    ∃ history, (Node.system nprocs).Execution (state.cluster rank) history
      (state'.cluster rank) := by
  cases step with
  | process _ _ acts => exact ⟨_, acts.execution rank⟩
  | hardware _ _ acts => exact ⟨_, acts.execution rank⟩
  | ask _ sent _ => exact update_execution_of_issuer (.single sent) rank
  | answer => exact ⟨[], .refl _⟩
  | bring =>
      obtain ⟨history, moves⟩ := scatter_execution (state.cluster program.issuer) _ _
      exact update_execution_of_issuer moves rank
  | complete _ _ step _ => exact update_execution_of_issuer (.single step) rank

/-- A rank of a reached state has been reached by a history of its own. -/
theorem reaches_rank (reached : (program.system start).Reaches events state)
    (rank : Fin nprocs) :
    ∃ history, (Node.system nprocs).Reaches history (state.cluster rank) := by
  refine reached.induction (motive := fun _ state => ∃ history,
    (Node.system nprocs).Reaches history (state.cluster rank)) ?_ ?_
  · intro first initial
    obtain ⟨held, setup, rested⟩ := initial.rested
    exact ⟨_, reaches_node rested.reached rank⟩
  · rintro events before event after - ⟨history, earlier⟩ step
    obtain ⟨more, moves⟩ := step.execution rank
    exact ⟨_, earlier.append moves⟩

/-- A rank at rest has nothing in its queues. -/
theorem rested_queues {held : Fin nprocs → ℕ} {setup : List (Label nprocs)}
    {cluster : Cluster nprocs} (rested : Rested held setup cluster) (rank peer : Fin nprocs) :
    (cluster rank).sendQueue peer = [] ∧ (cluster rank).executed peer = [] := by
  have settled := rested.settled rank peer
  rw [Node.outstanding] at settled
  exact ⟨List.eq_nil_of_length_eq_zero (by omega), List.eq_nil_of_length_eq_zero (by omega)⟩

theorem Program.Initial.sound (initial : program.Initial start state) :
    Sound program state.cluster := by
  obtain ⟨held, setup, rested⟩ := initial.rested
  obtain ⟨ret, idle⟩ := rested.idle program.issuer
  have empty := rested_queues rested
  refine ⟨?_, fun rank _ => empty rank, initial.rights⟩
  refine ⟨by simp [idle], .between idle, fun peer _ => empty program.issuer peer, ?_, ?_, ?_, ?_,
    initial.linked.here⟩
  · rw [(empty program.issuer program.target).1]
    exact fun posted member => absurd member List.not_mem_nil
  · rw [(empty program.issuer program.target).2]
    exact fun executed member => absurd member List.not_mem_nil
  · rw [Node.unhandled, idle, rested.unpolled]
    exact fun wc member => absurd member List.not_mem_nil
  · intro peer
    have counted := Node.reaches_qpPending (reaches_node rested.reached program.issuer) peer
    rw [rested.settled] at counted
    apply Or.inl
    rw [counted]
    decide

/-- At the start nothing has been asked for. -/
theorem Program.Initial.consistent (initial : program.Initial start state) :
    Consistent program start state [] [] [] [] := by
  obtain ⟨held, setup, rested⟩ := initial.rested
  have empty := rested_queues rested program.issuer program.target
  refine ⟨?_, fun _ => rfl, rfl, initial.memories, ?_, ?_, ?_, .nil, Or.inr ?_, ?_⟩
  · rw [initial.todo, List.nil_append]
  · rw [empty.1]
    exact .nil
  · rw [initial.reads]
    exact .nil
  · rw [initial.reads]
    exact fun reading member => absurd member List.not_mem_nil
  · exact fun copy member => absurd member List.not_mem_nil
  · rw [initial.reads]
    exact Nat.zero_le _

/-- A step keeps what holds of the ranks and of the copies. -/
theorem Sound.step {state' : State nprocs} {event : Event nprocs} {done : List Access}
    {made late pending : List Copy} {history : List (Action nprocs)}
    (sound : Sound program state.cluster)
    (consistent : Consistent program start state done made late pending)
    (ready : (Node.system nprocs).Reaches history (state.cluster program.issuer))
    (step : program.Step state event state') : Sound program state'.cluster ∧
      ∃ done made late pending, Consistent program start state' done made late pending := by
  cases step with
  | @process action cluster own follows acts =>
      cases acts with
      | act _ moves =>
          have listed : ∀ access ∈ state.todo, access.Fits program.rights := by
            intro access member
            apply program.fits
            rw [consistent.parts]
            exact List.mem_append_right _ member
          exact ⟨sound.update (sound.issuing.process listed own follows moves),
            consistent.process sound ready follows own moves⟩
  | hardware faultless unread acts =>
      have progresses := sound.progresses faultless unread acts
      obtain ⟨made, pending, after⟩ := consistent.hardware progresses
      exact ⟨sound.hardware (Node.reaches_formed ready) progresses, _, _, _, _, after⟩
  | ask opcode sent mem =>
      have permitted := sound.issuing.permitted _ sent.execute_queued
      obtain ⟨copy, rest, after⟩ := consistent.asks opcode permitted sent mem
      exact ⟨sound.update (sound.issuing.execute sent), _, _, _, _, after⟩
  | answer listed _ => exact ⟨sound, _, _, _, _, consistent.answers listed⟩
  | bring listed =>
      obtain ⟨copy, rest, after⟩ := consistent.brings listed
      exact ⟨sound.update sound.issuing.bring, _, _, _, _, after⟩
  | complete listed waits step leaves =>
      refine ⟨sound.update (sound.issuing.complete (Node.reaches_formed ready) step), _, _, _, _,
        consistent.completes step ?_⟩
      rw [leaves, List.countP_append]
      exact waits.trans (Nat.le_add_left _ _)

/-- A reached state is sound, and its memories are those after some of the copies. -/
theorem reaches_consistent (reached : (program.system start).Reaches events state) :
    Sound program state.cluster ∧
      ∃ done made late pending, Consistent program start state done made late pending := by
  refine reached.induction (motive := fun _ state => Sound program state.cluster ∧
    ∃ done made late pending, Consistent program start state done made late pending) ?_ ?_
  · exact fun first initial => ⟨initial.sound, _, _, _, _, initial.consistent⟩
  · rintro events before event after earlier ⟨sound, done, made, late, pending, consistent⟩ step
    obtain ⟨history, ready⟩ := reaches_rank earlier program.issuer
    exact sound.step consistent ready step

/-- **Copies as if in order.** In every reached state the memories are those after some of the
copies that the issuer has asked for, made one after the other, those of each direction in the order
of its calls. The missing ones turn them into the memories after all copies in order, and none from
before the last flush is missing. -/
theorem copies_in_order (reached : (program.system start).Reaches events state) :
    ∃ done made missing, program.accesses = done ++ state.todo ∧
      Copy.SameTurns (done.flatMap Access.copies) (made ++ missing) ∧
      program.memories state.cluster = Copy.performAll start made ∧
      Copy.performAll (program.memories state.cluster) missing =
        Copy.performAll start (done.flatMap Access.copies) ∧
      ((∃ ret, (state.cluster program.issuer).pc = .idle ret) →
        ∀ copy ∈ missing, copy ∈ Access.unflushed done) := by
  obtain ⟨-, done, made, late, pending, consistent⟩ := reaches_consistent reached
  refine ⟨done, made, late ++ pending, consistent.parts, consistent.turns, consistent.stores, ?_,
    ?_⟩
  · rw [consistent.stores, ← Copy.performAll_append, consistent.whole]
  · rintro ⟨ret, idle⟩
    exact consistent.recent_of_idle idle

/-- When the flush at the end has returned, the memories are those after all copies in order. -/
theorem copies_made (reached : (program.system start).Reaches events state)
    (finished : program.Finished state) (flushed : program.accesses.getLast? = some .flush) :
    program.memories state.cluster =
      Copy.performAll start (program.accesses.flatMap Access.copies) := by
  obtain ⟨done, made, missing, parts, -, -, whole, recent⟩ := copies_in_order reached
  rw [finished.1, List.append_nil] at parts
  subst parts
  obtain ⟨front, last⟩ := List.getLast?_eq_some_iff.mp flushed
  have none : missing = [] := by
    rw [List.eq_nil_iff_forall_not_mem]
    intro copy member
    have listed := recent finished.2 copy member
    rw [last, Access.unflushed_flush] at listed
    cases listed
  rwa [none] at whole

end Runs

end Ympi.OneSided
