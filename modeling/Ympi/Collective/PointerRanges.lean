import Ympi.Collective.Control

/-! # The ranges of the all-to-all with pointers

`YMPI_Alltoall_write_ptr` in calls whose block sizes differ. The first call of a rank fixes
how many bytes of its buffers are registered, and later calls neither register anything nor
compare their size. The bounds assertion of `YMPI_Write` looks at the region of the sender
only.

A state holds the ranks with their static variables. What the library calls of a rank do
below the assertion does not matter to the ranges, except that they may end the process.
-/

namespace Ympi.Collective

open Foundation Messaging

variable {nprocs : ℕ}

namespace Pointers

/-- The calls of the ranks of a communicator: the buffers of each rank, which stay the same, and
the size of a block in each call, for which the buffers have room. -/
structure Calls (nprocs : ℕ) where
  comm : ℕ
  numprocs : ℕ
  worldRank : Fin numprocs → Fin nprocs
  sendbuf : Fin numprocs → ℕ
  recvbuf : Fin numprocs → ℕ
  size : ℕ → ℕ
  sendRoom : ∀ rank call, sendbuf rank + numprocs * size call < 2 ^ 64
  recvRoom : ∀ rank call, recvbuf rank + numprocs * size call < 2 ^ 64

namespace Calls

variable (calls : Calls nprocs)

/-- The buffers of a rank. -/
def args (rank : Fin calls.numprocs) : Args :=
  .pointers (calls.sendbuf rank) (calls.recvbuf rank)

/-- The buffers that the first call of `rank` registers. -/
def registered (rank : Fin calls.numprocs) (keys : Keys) : RdmaBuffer × RdmaBuffer :=
  (calls.args rank).registered (calls.size 0) calls.numprocs keys

/-- `bytes * numprocs`: the number of bytes that a first call registers of each buffer. -/
def registeredBytes : ℕ :=
  sizeT (sizeT (calls.size 0 * calls.numprocs) * calls.numprocs)

/-- What `rank` tells the others about the buffers it has registered. -/
def offer (rank : Fin calls.numprocs) (keys : Keys) : Contribution :=
  ⟨(calls.registered rank keys).2.mr.rkey, calls.recvbuf rank, calls.worldRank rank⟩

/-- The call of `YMPI_Write` in the loop. -/
def writeCall (rank : Fin calls.numprocs) (call : ℕ) (statics : Statics) (buffer : RdmaBuffer)
    (dst : ℕ) (peer : Fin nprocs) : PostCall nprocs :=
  .write buffer (sizeT (dst * calls.size call)) (calls.size call) peer (statics.recvRkeyList dst)
    (sizeT (statics.recvRbufList dst + sizeT (rank * calls.size call)))

end Calls

/-- Where a rank is. -/
inductive Stage where
  /-- Between two calls. -/
  | outside
  /-- In the gathers of the first call. -/
  | gathering
  /-- At the test of the loop. -/
  | writing (dst : ℕ)
  | barrier
  /-- An assertion or an error has ended the process. -/
  | halted
  deriving DecidableEq

/-- A rank, which has entered `entered` calls. -/
structure Thread where
  statics : Statics
  stage : Stage
  offered : Option Contribution
  entered : ℕ

/-- The ranks, and how often each has entered the barrier. -/
structure State (calls : Calls nprocs) where
  threads : Fin calls.numprocs → Thread
  arrived : Fin calls.numprocs → ℕ

/-- What a rank does, with the number of the call where it matters. -/
inductive Event (calls : Calls nprocs) where
  | enter (rank : Fin calls.numprocs) (call : ℕ)
  | gather (rank : Fin calls.numprocs)
  /-- A call of `YMPI_Write` passes its assertion. -/
  | write (rank dst : Fin calls.numprocs) (call : ℕ) (request : PostCall nprocs)
  /-- The own block is copied, and the rank has flushed and enters the barrier. -/
  | finish (rank : Fin calls.numprocs)
  | leave (rank : Fin calls.numprocs)
  | halt (rank : Fin calls.numprocs)

/-- Replace the thread of a rank. -/
def State.withThread {calls : Calls nprocs} (state : State calls) (rank : Fin calls.numprocs)
    (thread : Thread) : State calls :=
  { state with threads := Function.update state.threads rank thread }

section Step

variable {calls : Calls nprocs}

inductive Step : State calls → Event calls → State calls → Prop where
  | enterFirst {state : State calls} {rank : Fin calls.numprocs} {statics : Statics} (keys : Keys) :
      (state.threads rank).stage = .outside → (state.threads rank).statics.firstCall = true →
      (state.threads rank).statics.first calls.comm (calls.args rank) (calls.registered rank keys) =
        .ok statics →
        Step state (.enter rank (state.threads rank).entered) (state.withThread rank {
          statics := statics
          stage := .gathering
          offered := some (calls.offer rank keys)
          entered := (state.threads rank).entered + 1 })
  | enterAgain {state : State calls} {rank : Fin calls.numprocs} :
      (state.threads rank).stage = .outside → (state.threads rank).statics.firstCall = false →
      (state.threads rank).statics.again calls.comm (calls.args rank) = .ok () →
        Step state (.enter rank (state.threads rank).entered) (state.withThread rank
          { state.threads rank with
            stage := .writing ((rank + 1) % calls.numprocs)
            entered := (state.threads rank).entered + 1 })
  /-- The static tables hold `MAX_NPROCS` entries. -/
  | gather {state : State calls} {rank : Fin calls.numprocs}
      {offers : Fin calls.numprocs → Contribution} :
      (state.threads rank).stage = .gathering → calls.numprocs ≤ maxNprocs →
      (∀ peer, (state.threads peer).offered = some (offers peer)) →
        Step state (.gather rank) (state.withThread rank { state.threads rank with
          statics := (state.threads rank).statics.gather offers
          stage := .writing ((rank + 1) % calls.numprocs) })
  /-- The loop goes on whatever `YMPI_Write` returns. -/
  | write {state : State calls} {rank dst : Fin calls.numprocs} {call : ℕ} {buffer : RdmaBuffer}
      {peer : Fin nprocs} :
      (state.threads rank).stage = .writing dst → dst ≠ rank →
      (state.threads rank).entered = call + 1 →
      (state.threads rank).statics.sendbuffer (calls.args rank) = some buffer →
      (state.threads rank).statics.alltoallWorldRanks dst = peer →
      (calls.writeCall rank call (state.threads rank).statics buffer dst peer).InBounds →
        Step state (.write rank dst call
            (calls.writeCall rank call (state.threads rank).statics buffer dst peer))
          (state.withThread rank { state.threads rank with
            stage := .writing ((dst + 1) % calls.numprocs) })
  | finish {state : State calls} {rank : Fin calls.numprocs} :
      (state.threads rank).stage = .writing rank →
        Step state (.finish rank) { state.withThread rank { state.threads rank with
            stage := .barrier } with
          arrived := Function.update state.arrived rank (state.arrived rank + 1) }
  | leave {state : State calls} {rank : Fin calls.numprocs} :
      (state.threads rank).stage = .barrier →
      (∀ peer, state.arrived rank ≤ state.arrived peer) →
        Step state (.leave rank) (state.withThread rank { state.threads rank with
          stage := .outside })
  | halt {state : State calls} {rank : Fin calls.numprocs} :
        Step state (.halt rank) (state.withThread rank { state.threads rank with
          stage := .halted })

/-- No rank has called anything yet. -/
structure Initial (state : State calls) : Prop where
  threads : ∀ rank, state.threads rank = ⟨.init, .outside, none, 0⟩
  arrived : ∀ rank, state.arrived rank = 0

end Step

/-- The transition system of the ranks. -/
def system (calls : Calls nprocs) : LabelledSystem (State calls) (Event calls) where
  Initial := Initial
  Step := Step

/-- The local range of the request lies inside the region. -/
def ReadsFrom (region : Mr) : PostCall nprocs → Prop
  | .write localSrc offset bytes _ _ _ => region.covers (localSrc.buf + offset) bytes
  | _ => False

/-- The remote range of the request lies inside the region. -/
def WritesTo (region : Mr) : PostCall nprocs → Prop
  | .write _ _ bytes _ _ destPtr => region.covers destPtr bytes
  | _ => False

variable {calls : Calls nprocs}

/-- Ranks have registered nothing outside their buffers, and all writes so far have their local
range inside what the rank has registered of its send buffer and their remote range inside what
the destination has registered of its receive buffer. -/
structure Inside (history : List (Event calls)) (state : State calls) : Prop where
  sendbuf : ∀ rank buffer, (state.threads rank).statics.lastSend = some buffer →
    calls.sendbuf rank ≤ buffer.mr.addr ∧
      buffer.mr.addr + buffer.mr.length ≤ calls.sendbuf rank + calls.numprocs * calls.size 0
  recvbuf : ∀ rank buffer, (state.threads rank).statics.lastRecv = some buffer →
    calls.recvbuf rank ≤ buffer.mr.addr ∧
      buffer.mr.addr + buffer.mr.length ≤ calls.recvbuf rank + calls.numprocs * calls.size 0
  writes : ∀ rank dst call request, .write rank dst call request ∈ history →
    ∃ source target, (state.threads rank).statics.lastSend = some source ∧
      (state.threads dst).statics.lastRecv = some target ∧
      ReadsFrom source.mr request ∧ WritesTo target.mr request

/-- A first call registers no more than the blocks of the call, and the block that a rank writes
to lies inside what the first calls have registered. -/
def Calls.Meets (calls : Calls nprocs) : Event calls → Prop
  | .enter _ 0 => calls.registeredBytes ≤ calls.numprocs * calls.size 0
  | .write rank _ call _ => (rank + 1) * calls.size call ≤ calls.registeredBytes
  | _ => True

/-- What a rank knows of itself. -/
structure Thread.Valid (thread : Thread) (rank : Fin calls.numprocs) : Prop where
  fresh : thread.statics.firstCall = true → thread.entered = 0 ∧ thread.offered = none ∧
    thread.statics.lastSend = none ∧ thread.statics.lastRecv = none
  started : thread.statics.firstCall = false → 0 < thread.entered ∧ ∃ keys,
    thread.statics.lastSend = some (calls.registered rank keys).1 ∧
      thread.statics.lastRecv = some (calls.registered rank keys).2 ∧
      thread.offered = some (calls.offer rank keys)
  inside : thread.stage ≠ .outside → thread.stage ≠ .halted → thread.statics.firstCall = false

/-- A rank that has made an offer or stored a buffer has registered its buffers. -/
theorem Thread.Valid.used {thread : Thread} {rank : Fin calls.numprocs} (valid : thread.Valid rank)
    (known : thread.offered ≠ none ∨ thread.statics.lastSend ≠ none ∨
      thread.statics.lastRecv ≠ none) : thread.statics.firstCall = false := by
  by_contra unused
  obtain ⟨-, offered, lastSend, lastRecv⟩ := valid.fresh (Bool.eq_true_of_not_eq_false unused)
  rcases known with some | some | some
  · exact some offered
  · exact some lastSend
  · exact some lastRecv

/-- The tables of a thread hold what the ranks have offered. -/
def Knows (threads : Fin calls.numprocs → Thread) (statics : Statics) : Prop :=
  ∀ peer, ∃ offer, (threads peer).offered = some offer ∧
    statics.recvRbufList peer = offer.recvbuf ∧ statics.recvRkeyList peer = offer.rkey

/-- What the ranks know of themselves and, after the gathers, of each other. -/
structure Consistent (threads : Fin calls.numprocs → Thread) : Prop where
  valid : ∀ rank, (threads rank).Valid rank
  gathered : ∀ rank, (threads rank).statics.firstCall = false → (threads rank).stage ≠ .gathering →
    (threads rank).stage ≠ .halted → Knows threads (threads rank).statics

/-- A rank goes on to a thread that has made the same offer, if it had made one. -/
theorem Consistent.move {threads : Fin calls.numprocs → Thread} {rank : Fin calls.numprocs}
    {thread : Thread} (consistent : Consistent threads) (valid : thread.Valid rank)
    (kept : ∀ offer, (threads rank).offered = some offer → thread.offered = some offer)
    (knows : thread.statics.firstCall = false → thread.stage ≠ .gathering →
      thread.stage ≠ .halted → Knows threads thread.statics) :
    Consistent (Function.update threads rank thread) := by
  have keeps {statics : Statics} (known : Knows threads statics) :
      Knows (Function.update threads rank thread) statics := by
    intro peer
    obtain ⟨offer, offered, tables⟩ := known peer
    refine ⟨offer, ?_, tables⟩
    by_cases same : peer = rank
    · subst same
      rw [Function.update_self]
      exact kept offer offered
    · rw [Function.update_of_ne same]
      exact offered
  refine ⟨fun other => ?_, fun other => ?_⟩
  · by_cases same : other = rank
    · subst same
      rw [Function.update_self]
      exact valid
    · rw [Function.update_of_ne same]
      exact consistent.valid other
  · by_cases same : other = rank
    · subst same
      rw [Function.update_self]
      exact fun started notGathering running => keeps (knows started notGathering running)
    · rw [Function.update_of_ne same]
      exact fun started notGathering running =>
        keeps (consistent.gathered other started notGathering running)

/-- A rank goes on to another stage of a call. -/
theorem Consistent.moveStage {threads : Fin calls.numprocs → Thread} {rank : Fin calls.numprocs}
    {stage : Stage} (consistent : Consistent threads)
    (started : stage ≠ .outside → stage ≠ .halted → (threads rank).statics.firstCall = false)
    (knows : (threads rank).statics.firstCall = false → stage ≠ .gathering → stage ≠ .halted →
      Knows threads (threads rank).statics) :
    Consistent (Function.update threads rank { threads rank with stage := stage }) := by
  have valid := consistent.valid rank
  exact consistent.move ⟨valid.fresh, valid.started, started⟩ (fun _ offered => offered) knows

theorem Step.consistent {state state' : State calls} {event : Event calls}
    (step : Step state event state') (consistent : Consistent state.threads) :
    Consistent state'.threads := by
  cases step with
  | @enterFirst rank statics keys stage fresh performed =>
      obtain ⟨used, lastSend, lastRecv, -⟩ := Statics.first_stores performed
      obtain ⟨-, unoffered, -⟩ := (consistent.valid rank).fresh fresh
      refine consistent.move ⟨fun unused => ?_, fun _ => ⟨Nat.succ_pos _, keys, lastSend, lastRecv, rfl⟩,
        fun _ _ => used⟩ (fun offer offered => ?_) (fun _ gathered => absurd rfl gathered)
      · exact absurd (used.symm.trans unused) Bool.false_ne_true
      · exact absurd (unoffered.symm.trans offered) (Option.some_ne_none _).symm
  | @enterAgain rank stage later performed =>
      have valid := consistent.valid rank
      refine consistent.move ⟨fun unused => ?_, fun _ => ⟨Nat.succ_pos _, (valid.started later).2⟩,
        fun _ _ => later⟩ (fun _ offered => offered) fun _ _ _ => ?_
      · exact absurd (later.symm.trans unused) Bool.false_ne_true
      · exact consistent.gathered rank later (by simp [stage]) (by simp [stage])
  | @gather rank offers stage _ offered =>
      have valid := consistent.valid rank
      have later := valid.inside (by simp [stage]) (by simp [stage])
      refine consistent.move ⟨valid.fresh, valid.started, fun _ _ => later⟩
        (fun _ offered => offered) fun _ _ _ peer => ⟨offers peer, offered peer, ?_⟩
      have tables := Statics.gather_tables (state.threads rank).statics offers peer
      exact ⟨tables.2.1, tables.1⟩
  | @write rank dst call buffer peer stage _ _ _ _ _ =>
      have later := (consistent.valid rank).inside (by simp [stage]) (by simp [stage])
      exact consistent.moveStage (fun _ _ => later) fun _ _ _ =>
        consistent.gathered rank later (by simp [stage]) (by simp [stage])
  | @finish rank stage =>
      have later := (consistent.valid rank).inside (by simp [stage]) (by simp [stage])
      exact consistent.moveStage (fun _ _ => later) fun _ _ _ =>
        consistent.gathered rank later (by simp [stage]) (by simp [stage])
  | @leave rank stage _ =>
      have later := (consistent.valid rank).inside (by simp [stage]) (by simp [stage])
      exact consistent.moveStage (fun _ _ => later) fun _ _ _ =>
        consistent.gathered rank later (by simp [stage]) (by simp [stage])
  | @halt rank =>
      exact consistent.moveStage (fun _ running => absurd rfl running)
        fun _ _ running => absurd rfl running

theorem Initial.consistent {state : State calls} (initial : Initial state) :
    Consistent state.threads where
  valid rank := by
    rw [initial.threads rank]
    exact ⟨fun _ => ⟨rfl, rfl, rfl, rfl⟩, fun used => absurd used (by decide),
      fun outside => absurd rfl outside⟩
  gathered rank used := by
    rw [initial.threads rank] at used
    cases used

variable {history : List (Event calls)} {state state' : State calls}

theorem reaches_consistent (reached : (system calls).Reaches history state) :
    Consistent state.threads :=
  @LabelledSystem.Reaches.invariant _ _ (system calls) (fun state => Consistent state.threads)
    (fun _ => Initial.consistent) (fun _ _ _ => Step.consistent) _ _ reached

section Ranges

/-- A block of a call lies inside the buffers of the caller. -/
theorem block_le (rank : Fin calls.numprocs) (call : ℕ) :
    rank * calls.size call + calls.size call ≤ calls.numprocs * calls.size call := by
  rw [← Nat.succ_mul]
  exact Nat.mul_le_mul_right _ rank.isLt

theorem sizeT_of_lt {value : ℕ} (small : value < 2 ^ 64) : sizeT value = value :=
  Nat.mod_eq_of_lt small

/-- The local range of a write that passes its assertion lies inside the send buffer that was
registered. -/
theorem readsFrom_of_inBounds {rank dst : Fin calls.numprocs} {call : ℕ} {keys : Keys}
    {statics : Statics} {peer : Fin nprocs}
    (passes : (calls.writeCall rank call statics (calls.registered rank keys).1 dst peer).InBounds) :
    ReadsFrom (calls.registered rank keys).1.mr
      (calls.writeCall rank call statics (calls.registered rank keys).1 dst peer) := by
  have room := calls.sendRoom rank call
  have block := block_le dst call
  have offset : sizeT (dst * calls.size call) = dst * calls.size call := sizeT_of_lt (by omega)
  change sizeT (sizeT (dst * calls.size call) + calls.size call) ≤ calls.registeredBytes at passes
  rw [offset, sizeT_of_lt (by omega)] at passes
  change calls.sendbuf rank ≤ calls.sendbuf rank + sizeT (dst * calls.size call) ∧
    calls.sendbuf rank + sizeT (dst * calls.size call) + calls.size call ≤
      calls.sendbuf rank + calls.registeredBytes
  rw [offset]
  omega

/-- The remote range of a write lies inside the receive buffer that the destination registered
exactly when the block of the writing rank does. -/
theorem writesTo_iff {rank dst : Fin calls.numprocs} {call : ℕ} {keys : Keys} {statics : Statics}
    {buffer : RdmaBuffer} {peer : Fin nprocs}
    (known : statics.recvRbufList dst = calls.recvbuf dst) :
    WritesTo (calls.registered dst keys).2.mr (calls.writeCall rank call statics buffer dst peer) ↔
      (rank + 1) * calls.size call ≤ calls.registeredBytes := by
  have room := calls.recvRoom dst call
  have block := block_le rank call
  have offset : sizeT (rank * calls.size call) = rank * calls.size call := sizeT_of_lt (by omega)
  have pointer : sizeT (statics.recvRbufList dst + sizeT (rank * calls.size call)) =
      calls.recvbuf dst + rank * calls.size call := by
    rw [known, offset]
    exact sizeT_of_lt (by omega)
  change calls.recvbuf dst ≤ sizeT (statics.recvRbufList dst + sizeT (rank * calls.size call)) ∧
    sizeT (statics.recvRbufList dst + sizeT (rank * calls.size call)) + calls.size call ≤
      calls.recvbuf dst + calls.registeredBytes ↔ _
  rw [pointer, Nat.succ_mul]
  omega

/-- A write that passes its assertion stays inside the local region, and inside the remote one
exactly when the block of the writing rank does. -/
theorem Step.write_ranges {rank dst : Fin calls.numprocs} {call : ℕ} {request : PostCall nprocs}
    (step : Step state (.write rank dst call request) state') (consistent : Consistent state.threads) :
    ∃ source target, (state.threads rank).statics.lastSend = some source ∧
      (state.threads dst).statics.lastRecv = some target ∧ ReadsFrom source.mr request ∧
      (WritesTo target.mr request ↔ (rank + 1) * calls.size call ≤ calls.registeredBytes) := by
  cases step with
  | @write _ _ _ buffer peer stage apart entered found world passes =>
      have later := (consistent.valid rank).inside (by simp [stage]) (by simp [stage])
      obtain ⟨-, keys, lastSend, -, -⟩ := (consistent.valid rank).started later
      obtain ⟨offer, offered, known, -⟩ :=
        consistent.gathered rank later (by simp [stage]) (by simp [stage]) dst
      have given : buffer = (calls.registered rank keys).1 := by
        have same : (state.threads rank).statics.lastSend = some buffer := found
        exact Option.some.inj (same.symm.trans lastSend)
      subst given
      -- The destination has made an offer, so it has registered its buffers.
      have registered := (consistent.valid dst).used
        (Or.inl (offered.trans_ne (Option.some_ne_none offer)))
      obtain ⟨-, keys', -, lastRecv, offered'⟩ := (consistent.valid dst).started registered
      cases Option.some.inj (offered.symm.trans offered')
      exact ⟨_, _, lastSend, lastRecv, readsFrom_of_inBounds passes, writesTo_iff known⟩

end Ranges

/-- The registered buffers are the same. -/
structure SameRegions (before after : Statics) : Prop where
  firstCall : after.firstCall = before.firstCall
  lastSend : after.lastSend = before.lastSend
  lastRecv : after.lastRecv = before.lastRecv

/-- A step registers the buffers of a rank for its first call, or leaves them as they are. -/
theorem Step.regions {event : Event calls} (step : Step state event state')
    (consistent : Consistent state.threads) (rank : Fin calls.numprocs) :
    (SameRegions (state.threads rank).statics (state'.threads rank).statics ∧
      event ≠ .enter rank 0) ∨
    event = .enter rank 0 ∧ (state.threads rank).statics.firstCall = true ∧
      (state'.threads rank).statics.firstCall = false := by
  have others {actor : Fin calls.numprocs} {thread : Thread} (apart : rank ≠ actor) :
      SameRegions (state.threads rank).statics
        (Function.update state.threads actor thread rank).statics := by
    rw [Function.update_of_ne apart]
    exact ⟨rfl, rfl, rfl⟩
  have quiet {actor : Fin calls.numprocs} {thread : Thread}
      (same : SameRegions (state.threads actor).statics thread.statics) :
      SameRegions (state.threads rank).statics
        (Function.update state.threads actor thread rank).statics := by
    by_cases own : rank = actor
    · rw [own, Function.update_self]
      exact same
    · exact others own
  cases step with
  | @enterFirst actor statics keys stage fresh performed =>
      by_cases own : rank = actor
      · subst own
        obtain ⟨zero, -⟩ := (consistent.valid rank).fresh fresh
        refine Or.inr ⟨by rw [zero], fresh, ?_⟩
        change (Function.update state.threads rank _ rank).statics.firstCall = false
        rw [Function.update_self]
        exact (Statics.first_stores performed).1
      · exact Or.inl ⟨others own, fun same => own (Event.enter.inj same).1.symm⟩
  | @enterAgain actor stage later performed =>
      refine Or.inl ⟨quiet ⟨rfl, rfl, rfl⟩, fun same => ?_⟩
      have started := ((consistent.valid actor).started later).1
      have zero : (state.threads actor).entered = 0 := (Event.enter.inj same).2
      omega
  | gather => exact Or.inl ⟨quiet ⟨rfl, rfl, rfl⟩, fun same => by cases same⟩
  | write => exact Or.inl ⟨quiet ⟨rfl, rfl, rfl⟩, fun same => by cases same⟩
  | finish => exact Or.inl ⟨quiet ⟨rfl, rfl, rfl⟩, fun same => by cases same⟩
  | leave => exact Or.inl ⟨quiet ⟨rfl, rfl, rfl⟩, fun same => by cases same⟩
  | halt => exact Or.inl ⟨quiet ⟨rfl, rfl, rfl⟩, fun same => by cases same⟩

/-- Buffers that are registered stay registered. -/
theorem Step.keeps {event : Event calls} (step : Step state event state')
    (consistent : Consistent state.threads) {rank : Fin calls.numprocs}
    (started : (state.threads rank).statics.firstCall = false) :
    SameRegions (state.threads rank).statics (state'.threads rank).statics := by
  rcases step.regions consistent rank with ⟨same, -⟩ | ⟨-, fresh, -⟩
  · exact same
  · exact absurd (started.symm.trans fresh) Bool.false_ne_true

/-- What a history says about the buffers that ranks have registered and about the writes. -/
structure Recorded (history : List (Event calls)) (threads : Fin calls.numprocs → Thread) : Prop where
  entered : ∀ rank, .enter rank 0 ∈ history ↔ (threads rank).statics.firstCall = false
  writes : ∀ rank dst call request, .write rank dst call request ∈ history →
    ∃ source target, (threads rank).statics.lastSend = some source ∧
      (threads dst).statics.lastRecv = some target ∧ ReadsFrom source.mr request ∧
      (WritesTo target.mr request ↔ (rank + 1) * calls.size call ≤ calls.registeredBytes)

theorem Step.recorded {event : Event calls} (step : Step state event state')
    (consistent : Consistent state.threads) (recorded : Recorded history state.threads) :
    Recorded (history ++ [event]) state'.threads where
  entered rank := by
    rw [List.mem_append, List.mem_singleton, recorded.entered rank]
    rcases step.regions consistent rank with ⟨same, other⟩ | ⟨enters, -, after⟩
    · rw [same.firstCall]
      exact or_iff_left other.symm
    · rw [after]
      exact iff_of_true (Or.inr enters.symm) rfl
  writes rank dst call request member := by
    -- A rank with a registered buffer has it after the step too.
    have later {source target : RdmaBuffer}
        (lastSend : (state.threads rank).statics.lastSend = some source)
        (lastRecv : (state.threads dst).statics.lastRecv = some target) :
        (state'.threads rank).statics.lastSend = some source ∧
          (state'.threads dst).statics.lastRecv = some target := by
      have own := (consistent.valid rank).used
        (Or.inr (Or.inl (lastSend.trans_ne (Option.some_ne_none source))))
      have other := (consistent.valid dst).used
        (Or.inr (Or.inr (lastRecv.trans_ne (Option.some_ne_none target))))
      exact ⟨(step.keeps consistent own).lastSend.trans lastSend,
        (step.keeps consistent other).lastRecv.trans lastRecv⟩
    rcases List.mem_append.mp member with member | member
    · obtain ⟨source, target, lastSend, lastRecv, inside⟩ := recorded.writes rank dst call request member
      exact ⟨source, target, (later lastSend lastRecv).1, (later lastSend lastRecv).2, inside⟩
    · cases List.mem_singleton.mp member
      obtain ⟨source, target, lastSend, lastRecv, inside⟩ := step.write_ranges consistent
      exact ⟨source, target, (later lastSend lastRecv).1, (later lastSend lastRecv).2, inside⟩

theorem reaches_recorded (reached : (system calls).Reaches history state) :
    Recorded history state.threads := by
  refine reached.induction (motive := fun history state => Recorded history state.threads) ?_ ?_
  · intro start initial
    refine ⟨fun rank => ?_, fun _ _ _ _ member => absurd member List.not_mem_nil⟩
    rw [initial.threads rank]
    exact iff_of_false List.not_mem_nil (by decide)
  · intro labels before label after earlier recorded step
    exact Step.recorded step (reaches_consistent earlier) recorded

/-- The registered bytes lie inside the buffers of the first call exactly when they are not
more than its blocks. -/
theorem registered_inside_iff (rank : Fin calls.numprocs) (keys : Keys) :
    ((calls.sendbuf rank ≤ (calls.registered rank keys).1.mr.addr ∧
      (calls.registered rank keys).1.mr.addr + (calls.registered rank keys).1.mr.length ≤
        calls.sendbuf rank + calls.numprocs * calls.size 0) ↔
      calls.registeredBytes ≤ calls.numprocs * calls.size 0) ∧
    ((calls.recvbuf rank ≤ (calls.registered rank keys).2.mr.addr ∧
      (calls.registered rank keys).2.mr.addr + (calls.registered rank keys).2.mr.length ≤
        calls.recvbuf rank + calls.numprocs * calls.size 0) ↔
      calls.registeredBytes ≤ calls.numprocs * calls.size 0) := by
  change ((calls.sendbuf rank ≤ calls.sendbuf rank ∧
      calls.sendbuf rank + calls.registeredBytes ≤ _) ↔ _) ∧
    ((calls.recvbuf rank ≤ calls.recvbuf rank ∧
      calls.recvbuf rank + calls.registeredBytes ≤ _) ↔ _)
  simp only [le_refl, true_and, Nat.add_le_add_iff_left, and_self]

/-- **Ranges of the writes.** In a run of any number of calls with any block sizes all
registered bytes and all ranges of writes stay inside, if and only if the first calls register
no more than their blocks and every rank that writes in a call writes to a block that lies
inside what the first calls have registered. -/
theorem pointer_ranges_iff (reached : (system calls).Reaches history state) :
    Inside history state ↔ ∀ event ∈ history, calls.Meets event := by
  have consistent := reaches_consistent reached
  have recorded := reaches_recorded reached
  refine ⟨fun inside event member => ?_, fun meets => ?_⟩
  · cases event with
    | enter rank call =>
        cases call with
        | zero =>
            have used := (recorded.entered rank).mp member
            obtain ⟨-, keys, lastSend, -, -⟩ := (consistent.valid rank).started used
            exact (registered_inside_iff rank keys).1.mp (inside.sendbuf rank _ lastSend)
        | succ call => trivial
    | write rank dst call request =>
        obtain ⟨_, target, _, lastRecv, _, exact'⟩ := recorded.writes rank dst call request member
        obtain ⟨_, target', _, lastRecv', _, writes⟩ := inside.writes rank dst call request member
        cases Option.some.inj (lastRecv.symm.trans lastRecv')
        exact exact'.mp writes
    | _ => trivial
  · have first {rank : Fin calls.numprocs} (used : (state.threads rank).statics.firstCall = false) :
        calls.registeredBytes ≤ calls.numprocs * calls.size 0 :=
      meets (.enter rank 0) ((recorded.entered rank).mpr used)
    refine ⟨fun rank buffer stored => ?_, fun rank buffer stored => ?_,
      fun rank dst call request member => ?_⟩
    · have used := (consistent.valid rank).used
        (Or.inr (Or.inl (stored.trans_ne (Option.some_ne_none buffer))))
      obtain ⟨-, keys, lastSend, -, -⟩ := (consistent.valid rank).started used
      cases Option.some.inj (stored.symm.trans lastSend)
      exact (registered_inside_iff rank keys).1.mpr (first used)
    · have used := (consistent.valid rank).used
        (Or.inr (Or.inr (stored.trans_ne (Option.some_ne_none buffer))))
      obtain ⟨-, keys, -, lastRecv, -⟩ := (consistent.valid rank).started used
      cases Option.some.inj (stored.symm.trans lastRecv)
      exact (registered_inside_iff rank keys).2.mpr (first used)
    · obtain ⟨source, target, lastSend, lastRecv, reads, exact'⟩ :=
        recorded.writes rank dst call request member
      exact ⟨source, target, lastSend, lastRecv, reads, exact'.mpr (meets _ member)⟩

/-- Ranks that have called nothing. -/
def start (calls : Calls nprocs) : State calls :=
  ⟨fun _ => ⟨.init, .outside, none, 0⟩, fun _ => 0⟩

theorem start_reached (calls : Calls nprocs) : (system calls).Reaches [] (start calls) :=
  .initial ⟨fun _ => rfl, fun _ => rfl⟩

/-- The keys of a registration. -/
def someKeys : Keys := ⟨1, 2, 3, 4⟩

/-- A rank alone calls with a block of eight bytes and then of sixteen bytes. -/
def alone : Calls 1 where
  comm := 0
  numprocs := 1
  worldRank rank := rank
  sendbuf _ := 16
  recvbuf _ := 32
  size call := if call = 0 then 8 else 16
  sendRoom _ call := by
    split <;> omega
  recvRoom _ call := by
    split <;> omega

/-- The rank stays inside its buffers in both calls. -/
theorem pointer_ranges_iff_alone : ∃ history state, (system alone).Reaches history state ∧
    (∀ rank, (state.threads rank).entered = 2) ∧ Inside history state := by
  let rank : Fin alone.numprocs := ⟨0, by decide⟩
  have reached := start_reached alone
  have reached := reached.step (@Step.enterFirst _ alone _ rank _ someKeys rfl rfl rfl)
  have reached := reached.step (@Step.gather _ alone _ rank (alone.offer · someKeys) rfl (by decide)
    fun | ⟨0, _⟩ => rfl)
  have reached := reached.step (@Step.finish _ alone _ rank (by decide))
  have reached := reached.step (@Step.leave _ alone _ rank (by decide) (by decide))
  have reached := reached.step (@Step.enterAgain _ alone _ rank (by decide) rfl rfl)
  refine ⟨_, _, reached, fun | ⟨0, _⟩ => rfl, (pointer_ranges_iff reached).mpr ?_⟩
  intro event member
  simp only [List.nil_append, List.cons_append, List.mem_cons, List.not_mem_nil, or_false] at member
  rcases member with rfl | rfl | rfl | rfl | rfl
  · exact Nat.le_of_ble_eq_true rfl
  · trivial
  · trivial
  · trivial
  · trivial

/-- Two ranks with buffers of eight bytes exchange blocks of one byte and then of four bytes. -/
def growing : Calls 2 where
  comm := 0
  numprocs := 2
  worldRank rank := rank
  sendbuf rank := 32 * rank + 16
  recvbuf rank := 32 * rank + 32
  size call := if call = 0 then 1 else 4
  sendRoom rank call := by
    have := rank.isLt
    split <;> omega
  recvRoom rank call := by
    have := rank.isLt
    split <;> omega

/-- The two ranks. -/
def rankZero : Fin growing.numprocs := ⟨0, by decide⟩

def rankOne : Fin growing.numprocs := ⟨1, by decide⟩

/-- What they offer to each other. -/
def offers (rank : Fin growing.numprocs) : Contribution :=
  growing.offer rank someKeys

/-- The first call registers four bytes of buffers of two, and in the second one rank 1 writes to
four bytes past those that rank 0 has registered. -/
theorem growing_outside : ∃ history state, (system growing).Reaches history state ∧
    (∃ buffer, (state.threads rankZero).statics.lastSend = some buffer ∧
      buffer.mr.length = 4 ∧ growing.numprocs * growing.size 0 = 2) ∧
    (∃ request target, .write rankOne rankZero 1 request ∈ history ∧
      (state.threads rankZero).statics.lastRecv = some target ∧ ¬ WritesTo target.mr request) ∧
    ¬ Inside history state := by
  have reached := start_reached growing
  -- The first call.
  have reached := reached.step (@Step.enterFirst _ growing _ rankZero _ someKeys rfl rfl rfl)
  have reached := reached.step (@Step.enterFirst _ growing _ rankOne _ someKeys rfl rfl rfl)
  have reached := reached.step (@Step.gather _ growing _ rankZero offers rfl (by decide)
    fun | ⟨0, _⟩ => rfl | ⟨1, _⟩ => rfl)
  have reached := reached.step (@Step.gather _ growing _ rankOne offers rfl (by decide)
    fun | ⟨0, _⟩ => rfl | ⟨1, _⟩ => rfl)
  have reached := reached.step (@Step.write _ growing _ rankZero rankOne 0 _ (1 : Fin 2) (by decide)
    (by decide) rfl rfl rfl (show Context.inBounds _ _ _ by decide))
  have reached := reached.step (@Step.write _ growing _ rankOne rankZero 0 _ (0 : Fin 2) (by decide)
    (by decide) rfl rfl rfl (show Context.inBounds _ _ _ by decide))
  have reached := reached.step (@Step.finish _ growing _ rankZero (by decide))
  have reached := reached.step (@Step.finish _ growing _ rankOne (by decide))
  have reached := reached.step (@Step.leave _ growing _ rankOne (by decide) (by decide))
  -- The second one.
  have reached := reached.step (@Step.enterAgain _ growing _ rankOne (by decide) rfl rfl)
  have reached := reached.step (@Step.write _ growing _ rankOne rankZero 1 _ (0 : Fin 2) (by decide)
    (by decide) rfl rfl rfl (show Context.inBounds _ _ _ by decide))
  refine ⟨_, _, reached, ⟨_, rfl, rfl, rfl⟩, ⟨_, _, List.mem_append_right _ List.mem_cons_self, rfl, ?_⟩,
    fun inside => ?_⟩
  · intro inside
    exact absurd inside.2 (by decide)
  · exact absurd (inside.sendbuf rankZero _ rfl).2 (by decide)

end Pointers

end Ympi.Collective
