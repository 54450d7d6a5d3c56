import Ympi.Collective.Alltoall
import Ympi.Messaging.SendAccounting

/-! # The course of a call

What every rank of the communicator knows from its first call on, how the calls of the
ranks are tied together by the barrier, and that a rank in the barrier has no request
outstanding.
-/

namespace Ympi.Collective

open LinkedList Foundation Messaging

variable {nprocs : ℕ} {setting : Setting nprocs}

namespace Setting

theorem block_le (rank : Fin setting.numprocs) :
    rank * setting.size + setting.size ≤ setting.numprocs * setting.size := by
  rw [← Nat.succ_mul]
  exact Nat.mul_le_mul_right _ rank.isLt

/-- The address that the loop computes is that of the block for `target`. -/
theorem sendBlock_eq (rank target : Fin setting.numprocs) :
    sizeT ((setting.args rank).sendbuf + sizeT (target * setting.size)) =
      setting.sendBlock rank target := by
  have room := (setting.buffers rank).sendRoom
  have inside := setting.block_le target
  unfold sizeT sendBlock
  rw [Nat.mod_eq_of_lt (show target * setting.size < 2 ^ 64 by omega), Nat.mod_eq_of_lt (by omega)]

/-- The remote address that the loop computes is that of the block of `source`. -/
theorem recvBlock_eq (source rank : Fin setting.numprocs) :
    sizeT ((setting.args rank).recvbuf + sizeT (source * setting.size)) =
      setting.recvBlock source rank := by
  have room := (setting.buffers rank).recvRoom
  have inside := setting.block_le source
  unfold sizeT recvBlock
  rw [Nat.mod_eq_of_lt (show source * setting.size < 2 ^ 64 by omega), Nat.mod_eq_of_lt (by omega)]

/-- The `memcpy` copies the block of a rank for itself. -/
theorem copyOwn_eq (rank : Fin setting.numprocs) (mem : ℕ → UInt8) :
    setting.copyOwn rank mem = writeBlock mem (setting.recvBlock rank rank)
      (readBlock mem (setting.sendBlock rank rank) setting.size) := by
  have room := (setting.buffers rank).sendRoom
  have inside := setting.block_le rank
  unfold copyOwn sizeT recvBlock sendBlock
  rw [Nat.mod_eq_of_lt (show rank * setting.size < 2 ^ 64 by omega)]

/-- The blocks of a receive buffer do not overlap. -/
theorem recvBlock_apart {source other : Fin setting.numprocs} (distinct : source ≠ other)
    (rank : Fin setting.numprocs) :
    setting.recvBlock source rank + setting.size ≤ setting.recvBlock other rank ∨
      setting.recvBlock other rank + setting.size ≤ setting.recvBlock source rank := by
  have apart := @slots_apart _ _ setting.size (Fin.val_ne_of_ne distinct)
  unfold recvBlock
  omega

/-- The send buffer does not overlap the receive buffer. -/
theorem sendBlock_apart (rank target source : Fin setting.numprocs) :
    setting.sendBlock rank target + setting.size ≤ setting.recvBlock source rank ∨
      setting.recvBlock source rank + setting.size ≤ setting.sendBlock rank target := by
  have apart := (setting.buffers rank).apart
  have first := setting.block_le target
  have second := setting.block_le source
  unfold recvBlock sendBlock
  omega

/-- The loop sends from the caller's buffer. -/
theorem registered_buf (rank : Fin setting.numprocs) (keys : Keys) :
    (setting.registered rank keys).1.buf = (setting.args rank).sendbuf := by
  unfold registered
  cases setting.args rank <;> rfl

theorem inBlocks_recvBlock {source rank : Fin setting.numprocs} {offset : ℕ}
    (inside : offset < setting.size) :
    setting.InBlocks rank (setting.recvBlock source rank + offset) := by
  have within := setting.block_le source
  unfold InBlocks recvBlock
  omega

end Setting

/-- The rank is in a call and has not entered its barrier. -/
def Stage.Inside (stage : Stage) : Prop :=
  stage ≠ .outside ∧ stage ≠ .barrier

namespace Thread

/-- The number of calls from which the rank has returned. -/
def returns (thread : Thread) : ℕ :=
  if thread.stage = .outside then thread.calls else thread.calls - 1

/-- The number of calls in which the rank has reached the barrier. -/
def barriers (thread : Thread) : ℕ :=
  if thread.stage = .outside ∨ thread.stage = .barrier then thread.calls else thread.calls - 1

/-- The static variables of a rank are as its calls left them. -/
structure Valid (setting : Setting nprocs) (rank : Fin setting.numprocs) (thread : Thread) :
    Prop where
  fresh : thread.statics.firstCall = true → thread.stage = .outside ∧ thread.calls = 0
  offered : ∀ contribution, thread.offered = some contribution →
    contribution.recvbuf = (setting.args rank).recvbuf ∧
      contribution.worldRank = setting.worldRank rank
  again : thread.statics.firstCall = false →
    thread.statics.again setting.comm (setting.args rank) = .ok ()
  sendbuffer : thread.statics.firstCall = false →
    ∃ buffer, thread.statics.sendbuffer (setting.args rank) = some buffer ∧
      buffer.buf = (setting.args rank).sendbuf
  tables : thread.statics.firstCall = false → thread.stage ≠ .gathering →
    ∀ peer : Fin setting.numprocs, thread.statics.recvRbufList peer = (setting.args peer).recvbuf ∧
      thread.statics.alltoallWorldRanks peer = setting.worldRank peer
  inside : thread.stage ≠ .outside → 0 < thread.calls
  dst : ∀ dst, thread.stage = .writing dst → dst < setting.numprocs

variable {rank : Fin setting.numprocs} {thread : Thread}

theorem Valid.started (valid : thread.Valid setting rank) (inside : thread.stage ≠ .outside) :
    thread.statics.firstCall = false := by
  cases first : thread.statics.firstCall with
  | false => rfl
  | true => exact absurd (valid.fresh first).1 inside

/-- Moving on within the calls that have begun keeps what a rank knows. -/
theorem Valid.withStage {stage : Stage} (valid : thread.Valid setting rank)
    (inside : thread.stage ≠ .outside) (gathered : thread.stage ≠ .gathering)
    (dst : ∀ dst, stage = .writing dst → dst < setting.numprocs) :
    Valid setting rank { thread with stage := stage } := by
  have started := valid.started inside
  refine ⟨?_, valid.offered, valid.again, valid.sendbuffer, ?_, fun _ => valid.inside inside, dst⟩
  · intro first
    exact absurd (started.symm.trans first) Bool.false_ne_true
  · intro _ _
    exact valid.tables started gathered

end Thread

namespace Statics

/-- A first call finds the buffers usable. -/
theorem first_ok (statics : Statics) (rank : Fin setting.numprocs)
    (buffers : RdmaBuffer × RdmaBuffer) :
    ∃ stored, statics.first setting.comm (setting.args rank) buffers = .ok stored := by
  have hold := setting.buffers rank
  cases given : setting.args rank with
  | handles sendbuffer recvbuffer =>
      have present : recvbuffer.buf ≠ 0 := by
        have := hold.recvbuf_ne
        rwa [given] at this
      exact ⟨_, if_neg present⟩
  | pointers sendbuf recvbuf =>
      have present : ¬ (sendbuf = 0 ∨ recvbuf = 0) := by
        have first := hold.sendbuf_ne
        have second := hold.recvbuf_ne
        rw [given] at first second
        exact not_or.mpr ⟨first, second⟩
      exact ⟨_, if_neg present⟩

/-- What a first call stores. -/
theorem first_stores {statics stored : Statics} {comm : ℕ} {args : Args}
    {buffers : RdmaBuffer × RdmaBuffer} (performed : statics.first comm args buffers = .ok stored) :
    stored.firstCall = false ∧ stored.lastSend = some buffers.1 ∧
      stored.lastRecv = some buffers.2 ∧ stored.lastComm = some comm ∧
      ∀ sendbuf recvbuf, args = .pointers sendbuf recvbuf →
        stored.lastSendbuf = sendbuf ∧ stored.lastRecvbuf = recvbuf := by
  cases args with
  | handles sendbuffer recvbuffer =>
      rw [first] at performed
      split at performed
      · cases performed
      · cases performed
        exact ⟨rfl, rfl, rfl, rfl, fun _ _ given => by cases given⟩
  | pointers sendbuf recvbuf =>
      rw [first] at performed
      split at performed
      · cases performed
      · cases performed
        refine ⟨rfl, rfl, rfl, rfl, fun _ _ given => ?_⟩
        cases given
        exact ⟨rfl, rfl⟩

/-- What a first call stores lets the later calls pass and find the send buffer. -/
theorem first_eq_ok {statics stored : Statics} {rank : Fin setting.numprocs} {keys : Keys}
    (performed : statics.first setting.comm (setting.args rank) (setting.registered rank keys) =
      .ok stored) :
    stored.firstCall = false ∧ stored.again setting.comm (setting.args rank) = .ok () ∧
      stored.sendbuffer (setting.args rank) = some (setting.registered rank keys).1 := by
  obtain ⟨used, lastSend, lastRecv, lastComm, pointers⟩ := first_stores performed
  unfold Setting.registered at lastSend lastRecv ⊢
  cases given : setting.args rank with
  | handles sendbuffer recvbuffer =>
      rw [given] at lastSend lastRecv
      exact ⟨used, if_pos ⟨lastSend, lastRecv, lastComm⟩, rfl⟩
  | pointers sendbuf recvbuf =>
      obtain ⟨lastSendbuf, lastRecvbuf⟩ := pointers sendbuf recvbuf given
      rw [given] at lastSend
      exact ⟨used, if_pos ⟨lastSendbuf, lastRecvbuf, lastComm⟩, lastSend⟩

/-- The gathers fill in the tables. -/
theorem gather_tables (statics : Statics) {numprocs : ℕ} (offers : Fin numprocs → Contribution)
    (peer : Fin numprocs) :
    (statics.gather offers).recvRkeyList peer = (offers peer).rkey ∧
      (statics.gather offers).recvRbufList peer = (offers peer).recvbuf ∧
      (statics.gather offers).alltoallWorldRanks peer = (offers peer).worldRank :=
  ⟨dif_pos peer.isLt, dif_pos peer.isLt, dif_pos peer.isLt⟩

@[simp] theorem gather_again (statics : Statics) {numprocs : ℕ}
    (offers : Fin numprocs → Contribution) (comm : ℕ) (args : Args) :
    (statics.gather offers).again comm args = statics.again comm args := by
  cases args <;> rfl

@[simp] theorem gather_sendbuffer (statics : Statics) {numprocs : ℕ}
    (offers : Fin numprocs → Contribution) (args : Args) :
    (statics.gather offers).sendbuffer args = statics.sendbuffer args := by
  cases args <;> rfl

end Statics

namespace State

variable {state state' : State setting} {event : Event setting}

/-- The ranks of the communicator and the barrier agree on who is in which call. -/
structure Coordinated (state : State setting) : Prop where
  valid : ∀ rank, (state.threads rank).Valid setting rank
  arrived : ∀ rank, state.arrived (setting.worldRank rank) = (state.threads rank).barriers
  together : ∀ rank peer, (state.threads rank).returns ≤ state.arrived peer

/-- A rank moves on while the others stay where they are. -/
theorem Coordinated.move {rank : Fin setting.numprocs} {thread : Thread} {cluster : Cluster nprocs}
    {arrived : Fin nprocs → ℕ} (coordinated : state.Coordinated)
    (valid : thread.Valid setting rank) (own : arrived (setting.worldRank rank) = thread.barriers)
    (others : ∀ peer, peer ≠ setting.worldRank rank → arrived peer = state.arrived peer)
    (grows : ∀ peer, state.arrived peer ≤ arrived peer)
    (together : ∀ peer, thread.returns ≤ arrived peer) :
    @Coordinated _ setting ⟨cluster, Function.update state.threads rank thread, arrived⟩ := by
  refine ⟨?_, ?_, ?_⟩
  · intro other
    by_cases same : other = rank
    · subst same
      simpa using valid
    · simpa [same] using coordinated.valid other
  · intro other
    by_cases same : other = rank
    · subst same
      simpa using own
    · have apart : setting.worldRank other ≠ setting.worldRank rank :=
        fun equal => same (setting.distinct equal)
      simpa [same, others _ apart] using coordinated.arrived other
  · intro other peer
    by_cases same : other = rank
    · subst same
      simpa using together peer
    · simpa [same] using (coordinated.together other peer).trans (grows peer)

/-- A rank moves on without entering or leaving the barrier. -/
theorem Coordinated.moveInside {rank : Fin setting.numprocs} {thread : Thread}
    {cluster : Cluster nprocs} (coordinated : state.Coordinated)
    (valid : thread.Valid setting rank)
    (barriers : thread.barriers = (state.threads rank).barriers)
    (returns : thread.returns = (state.threads rank).returns) :
    @Coordinated _ setting ⟨cluster, Function.update state.threads rank thread, state.arrived⟩ := by
  refine coordinated.move valid ?_ (fun _ _ => rfl) (fun _ => le_refl _) ?_
  · rw [barriers]
    exact coordinated.arrived rank
  · rw [returns]
    exact coordinated.together rank

/-- A rank that goes on inside its call stays before the barrier. -/
theorem Coordinated.moveStage {rank : Fin setting.numprocs} {before after : Stage}
    {cluster : Cluster nprocs} (coordinated : state.Coordinated)
    (stage : (state.threads rank).stage = before) (leaves : before.Inside) (stays : after.Inside)
    (gathered : before ≠ .gathering)
    (dst : ∀ dst, after = .writing dst → dst < setting.numprocs) :
    @Coordinated _ setting ⟨cluster, Function.update state.threads rank { state.threads rank with
      stage := after }, state.arrived⟩ := by
  subst stage
  apply coordinated.moveInside ((coordinated.valid rank).withStage leaves.1 gathered dst)
  · simp [Thread.barriers, leaves.1, leaves.2, stays.1, stays.2]
  · simp [Thread.returns, leaves.1, stays.1]

end State

/-- The loop starts inside the communicator. -/
theorem start_lt {rank : Fin setting.numprocs} {dst : ℕ}
    (same : Stage.writing ((rank + 1) % setting.numprocs) = .writing dst) :
    dst < setting.numprocs := by
  cases same
  exact Nat.mod_lt _ (Nat.zero_lt_of_lt rank.isLt)

/-- A step keeps the ranks coordinated. -/
theorem Step.coordinated {state state' : State setting} {event : Event setting}
    (step : Step state event state') (coordinated : state.Coordinated) : state'.Coordinated := by
  cases step with
  | @enterFirst rank ret statics keys stage idle first performed =>
      have fresh := (coordinated.valid rank).fresh first
      obtain ⟨used, again, found⟩ := Statics.first_eq_ok performed
      refine coordinated.moveInside ⟨?_, ?_, fun _ => again,
        fun _ => ⟨_, found, setting.registered_buf rank keys⟩, ?_, ?_, ?_⟩ ?_ ?_
      · intro unused
        exact absurd (used.symm.trans unused) Bool.false_ne_true
      · rintro _ ⟨⟩
        exact ⟨rfl, rfl⟩
      · intro _ gathered
        exact absurd rfl gathered
      · intro _
        exact Nat.succ_pos _
      · rintro dst ⟨⟩
      · simp [Thread.barriers, stage]
      · simp [Thread.returns, stage]
  | @enterAgain rank ret stage idle later performed =>
      have valid := coordinated.valid rank
      refine coordinated.moveInside
        ⟨?_, valid.offered, valid.again, valid.sendbuffer, ?_, ?_, fun _ => start_lt⟩ ?_ ?_
      · intro unused
        exact absurd (later.symm.trans unused) Bool.false_ne_true
      · intro _ _
        exact valid.tables later (by simp [stage])
      · intro _
        exact Nat.succ_pos _
      · simp [Thread.barriers, stage]
      · simp [Thread.returns, stage]
  | @gather rank offers stage offered =>
      have valid := coordinated.valid rank
      have inside : (state.threads rank).stage ≠ .outside := by simp [stage]
      have started := valid.started inside
      refine coordinated.moveInside ⟨?_, valid.offered, ?_, ?_, ?_, ?_, fun _ => start_lt⟩ ?_ ?_
      · intro unused
        exact absurd (started.symm.trans unused) Bool.false_ne_true
      · intro _
        rw [Statics.gather_again]
        exact valid.again started
      · intro _
        rw [Statics.gather_sendbuffer]
        exact valid.sendbuffer started
      · intro _ _ peer
        obtain ⟨recvbuf, worldRank⟩ := (coordinated.valid peer).offered _ (offered peer)
        rw [← recvbuf, ← worldRank]
        exact ((state.threads rank).statics.gather_tables offers peer).2
      · intro _
        exact valid.inside inside
      · simp [Thread.barriers, stage]
      · simp [Thread.returns, stage]
  | @write rank _ _ _ _ _ _ stage =>
      refine coordinated.moveStage stage (by simp [Stage.Inside]) (by simp [Stage.Inside])
        (by simp) ?_
      rintro _ ⟨⟩
      exact Nat.mod_lt _ (Nat.zero_lt_of_lt rank.isLt)
  | fail => exact ⟨coordinated.valid, coordinated.arrived, coordinated.together⟩
  | copy stage =>
      exact coordinated.moveStage stage (by simp [Stage.Inside]) (by simp [Stage.Inside])
        (by simp) nofun
  | flush stage =>
      exact coordinated.moveStage stage (by simp [Stage.Inside]) (by simp [Stage.Inside])
        (by simp) nofun
  | @arrive rank ret stage idle =>
      have inside : (state.threads rank).stage ≠ .outside := by simp [stage]
      have positive := (coordinated.valid rank).inside inside
      have before := coordinated.arrived rank
      have grows : ∀ peer, state.arrived peer ≤ Function.update state.arrived
          (setting.worldRank rank) (state.arrived (setting.worldRank rank) + 1) peer := by
        intro peer
        by_cases same : peer = setting.worldRank rank
        · subst same
          rw [Function.update_self]
          omega
        · rw [Function.update_of_ne same]
      refine coordinated.move
        ((coordinated.valid rank).withStage inside (by simp [stage]) nofun) ?_
        (fun peer other => Function.update_of_ne other ..) grows ?_
      · rw [Function.update_self, before]
        simp only [Thread.barriers, stage]
        simp
        omega
      · intro peer
        have earlier := (coordinated.together rank peer).trans (grows peer)
        simpa [Thread.returns, stage] using earlier
  | @leave rank stage all =>
      have inside : (state.threads rank).stage ≠ .outside := by simp [stage]
      have before := coordinated.arrived rank
      refine coordinated.move
        ((coordinated.valid rank).withStage inside (by simp [stage]) nofun) ?_
        (fun _ _ => rfl) (fun _ => le_refl _) ?_
      · rw [before]
        simp [Thread.barriers, stage]
      · intro peer
        have passed := all peer
        rw [before] at passed
        simpa [Thread.barriers, Thread.returns, stage] using passed
  | @join outsider apart all =>
      refine ⟨coordinated.valid, ?_, ?_⟩
      · intro rank
        change Function.update state.arrived outsider _ (setting.worldRank rank) = _
        rw [Function.update_of_ne (apart rank)]
        exact coordinated.arrived rank
      · intro rank peer
        change _ ≤ Function.update state.arrived outsider _ peer
        by_cases same : peer = outsider
        · subst same
          rw [Function.update_self]
          exact (coordinated.together rank peer).trans (Nat.le_succ _)
        · rw [Function.update_of_ne same]
          exact coordinated.together rank peer
  | run => exact ⟨coordinated.valid, coordinated.arrived, coordinated.together⟩

theorem Initial.coordinated {state : State setting} (initial : Initial state) :
    state.Coordinated := by
  refine ⟨?_, ?_, ?_⟩
  · intro rank
    have unused : (state.threads rank).statics.firstCall = true := by
      rw [initial.statics]
      rfl
    refine ⟨fun _ => ⟨initial.stage rank, initial.calls rank⟩, ?_, ?_, ?_, ?_, ?_, ?_⟩
    · intro contribution offered
      exact absurd ((initial.offered rank).symm.trans offered) nofun
    · intro used
      exact absurd (unused.symm.trans used) Bool.noConfusion
    · intro used
      exact absurd (unused.symm.trans used) Bool.noConfusion
    · intro used
      exact absurd (unused.symm.trans used) Bool.noConfusion
    · intro inside
      exact absurd (initial.stage rank) inside
    · intro dst stage
      exact absurd ((initial.stage rank).symm.trans stage) nofun
  · intro rank
    rw [initial.arrived]
    simp [Thread.barriers, initial.calls]
  · intro rank peer
    simp [Thread.returns, initial.calls]

variable {history : List (Event setting)} {state : State setting}

theorem reaches_coordinated (reached : (system setting).Reaches history state) :
    state.Coordinated :=
  reached.invariant (fun _ => Initial.coordinated) fun _ _ _ => Step.coordinated

/-- A process registers memory between two calls. -/
theorem register_run (cluster : Cluster nprocs) (rank : Fin nprocs) {node : Node nprocs} {ret : Int}
    (idle : node.pc = .idle ret) (mrs : List Mr) :
    ∃ labels, (Cluster.system nprocs).Execution (Function.update cluster rank node) labels
      (Function.update cluster rank { node with mrs := mrs ++ node.mrs }) := by
  induction mrs with
  | nil => exact ⟨[], .refl _⟩
  | cons mr rest ih =>
      obtain ⟨labels, earlier⟩ := ih
      have next : Node.Step { node with mrs := rest ++ node.mrs } (.register mr) _ :=
        Node.Step.register mr idle
      exact ⟨_, .snoc earlier (Cluster.act_update rfl next)⟩

/-- A step of the collective is an execution of the cluster. -/
theorem Step.execution {state state' : State setting} {event : Event setting}
    (step : Step state event state') :
    ∃ labels, (Cluster.system nprocs).Execution state.cluster labels state'.cluster := by
  cases step with
  | @enterFirst rank _ _ keys _ idle =>
      have run := register_run state.cluster (setting.worldRank rank) idle
        ((setting.args rank).registrations (setting.registered rank keys))
      rw [Function.update_eq_self] at run
      exact run
  | enterAgain | gather | arrive | leave | join => exact ⟨[], .refl _⟩
  | write _ _ _ _ acts => exact ⟨_, .single acts⟩
  | fail _ _ _ _ _ acts => exact ⟨_, .single acts⟩
  | copy _ acts => exact ⟨_, .single acts⟩
  | flush _ acts => exact ⟨_, .single acts⟩
  | run acts => exact ⟨_, .single acts⟩

/-- The cluster of a reached state has been reached. -/
theorem reaches_cluster (reached : (system setting).Reaches history state) :
    ∃ labels, (Cluster.system nprocs).Reaches labels state.cluster := by
  refine reached.induction
    (motive := fun _ state => ∃ labels, (Cluster.system nprocs).Reaches labels state.cluster) ?_ ?_
  · intro start initial
    exact ⟨[], .initial initial.cluster⟩
  · intro _ before event after _ earlier step
    obtain ⟨labels, reached⟩ := earlier
    obtain ⟨more, execution⟩ := step.execution
    exact ⟨_, reached.append execution⟩

end Ympi.Collective
