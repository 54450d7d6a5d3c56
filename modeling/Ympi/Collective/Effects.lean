import Ympi.Collective.Control
import Ympi.Messaging.RdmaRequests

/-! # The effects of a step of the collective

What a step does to the thread of a rank, to its memory and to the RDMA requests in
flight, each said once: how a rank moves on in its call, that only stores between two
calls, the own copy and the writes of the collective change a memory, and where RDMA
requests come from.
-/

namespace Ympi.Collective

open LinkedList Foundation Messaging

variable {nprocs : ℕ} {setting : Setting nprocs}

namespace Stage

/-- The rank may have RDMA requests in flight. -/
def Requests : Stage → Prop
  | .writing _ => True
  | .copied => True
  | .flushing => True
  | _ => False

/-- The moves of `rank` inside a call. -/
inductive Next (rank : Fin setting.numprocs) : Event setting → Stage → Stage → Prop where
  | gather : Next rank (.gather rank) .gathering (.writing ((rank + 1) % setting.numprocs))
  | write {dst : ℕ} {call : PostCall nprocs} {outcome : PostOutcome} : dst ≠ rank →
      Next rank (.write rank call outcome) (.writing dst) (.writing ((dst + 1) % setting.numprocs))
  | copy : Next rank (.copy rank) (.writing rank) .copied
  | flush : Next rank (.flush rank) .copied .flushing
  | arrive : Next rank (.arrive rank) .flushing .barrier
  | leave : Next rank (.leave rank) .barrier .outside

end Stage

namespace State

variable (state : State setting)

/-- What a step does to the thread of `rank`. -/
inductive ThreadEffect (rank : Fin setting.numprocs) : Event setting → Thread → Prop where
  | stays {event : Event setting} :
      event.actor ≠ some rank → ThreadEffect rank event (state.threads rank)
  | enters {statics : Statics} {stage : Stage} {offered : Option Contribution} :
      (state.threads rank).stage = .outside →
      stage = .gathering ∨ stage = .writing ((rank + 1) % setting.numprocs) →
        ThreadEffect rank (.enter rank)
          ⟨statics, stage, offered, (state.threads rank).calls + 1, (state.node rank).mem⟩
  | moves {event : Event setting} {statics : Statics} {before after : Stage} :
      (state.threads rank).stage = before → Stage.Next rank event before after →
        ThreadEffect rank event { state.threads rank with statics := statics, stage := after }

/-- The block for `rank` in the send buffer of `source` when it entered its last call. -/
def want (source rank : Fin setting.numprocs) : List UInt8 :=
  readBlock (state.threads source).entryMem (setting.sendBlock source rank) setting.size

/-- The block of `source` in the receive buffer of `rank`. -/
def block (source rank : Fin setting.numprocs) : List UInt8 :=
  readBlock (state.node rank).mem (setting.recvBlock source rank) setting.size

/-- A write of `source` in flight to `rank`. -/
structure Carried (source rank : Fin setting.numprocs) (posted : Posted) : Prop where
  other : source ≠ rank
  requests : (state.threads source).stage.Requests
  opcode : posted.wr.opcode = .rdmaWrite
  address : posted.wr.remoteAddr = setting.recvBlock source rank
  data : posted.data = state.want source rank

/-- Every RDMA request in a send queue is a write of the collective. -/
def Carries : Prop :=
  ∀ actor peer, ∀ posted ∈ (state.cluster actor).sendQueue peer, posted.wr.opcode ≠ .send →
    ∃ source rank, setting.worldRank source = actor ∧ setting.worldRank rank = peer ∧
      state.Carried source rank posted

/-- What a step does to the memory of `rank`. -/
inductive MemoryEffect (rank : Fin setting.numprocs) : Event setting → (ℕ → UInt8) → Prop where
  | same {event : Event setting} : MemoryEffect rank event (state.node rank).mem
  /-- The process changes its memory between two calls. -/
  | stored {mem : ℕ → UInt8} : (state.threads rank).stage = .outside → state.StoreSafe rank mem →
      MemoryEffect rank (.run (.act (setting.worldRank rank) (.store mem))) mem
  | copied : (state.threads rank).stage = .writing rank →
      MemoryEffect rank (.copy rank) (writeBlock (state.node rank).mem
        (setting.recvBlock rank rank)
        (readBlock (state.node rank).mem (setting.sendBlock rank rank) setting.size))
  /-- A write lands. -/
  | landed {source : Fin setting.numprocs} {posted : Posted} : state.Carried source rank posted →
      MemoryEffect rank
        (.run (.rdmaWrite (setting.worldRank source) (setting.worldRank rank) posted true))
        (writeBlock (state.node rank).mem (setting.recvBlock source rank)
          (state.want source rank))

variable {state}

/-- The RDMA writes of the cluster are those of the collective. -/
theorem Carries.write {origin dest : Fin nprocs} {posted : Posted} {done : Bool}
    {cluster : Cluster nprocs} (carries : state.Carries)
    (acts : Cluster.Step state.cluster (.rdmaWrite origin dest posted done) cluster) :
    ∃ source rank, setting.worldRank source = origin ∧ setting.worldRank rank = dest ∧
      state.Carried source rank posted := by
  obtain ⟨opcode, queued⟩ := acts.rdmaWrite_queued
  exact carries origin dest posted queued (by simp [opcode])

/-- The cluster does no RDMA read. -/
theorem Carries.no_read {origin dest : Fin nprocs} {posted : Posted} {done : Bool}
    {fetched : List UInt8} {cluster : Cluster nprocs} (carries : state.Carries) :
    ¬ Cluster.Step state.cluster (.rdmaRead origin dest posted done fetched) cluster := by
  intro acts
  obtain ⟨opcode, queued⟩ := acts.rdmaRead_queued
  obtain ⟨source, rank, -, -, carried⟩ := carries origin dest posted queued (by simp [opcode])
  exact absurd (opcode.symm.trans carried.opcode) (by simp)

theorem MemoryEffect.of_eq {rank : Fin setting.numprocs} {event : Event setting}
    {mem : ℕ → UInt8} (same : mem = (state.node rank).mem) :
    state.MemoryEffect rank event mem := by
  subst same
  exact .same

/-- The threads of the other ranks stay as they are. -/
theorem ThreadEffect.update {actor : Fin setting.numprocs} {event : Event setting}
    {thread : Thread} (own : state.ThreadEffect actor event thread)
    (acts : event.actor = some actor) (rank : Fin setting.numprocs) :
    state.ThreadEffect rank event (Function.update state.threads actor thread rank) := by
  by_cases same : rank = actor
  · subst same
    rw [Function.update_self]
    exact own
  · rw [Function.update_of_ne same]
    refine .stays ?_
    rw [acts]
    exact fun equal => same (Option.some.inj equal).symm

end State

namespace Step

variable {state state' : State setting} {event : Event setting}

theorem thread_effect (step : Step state event state') (rank : Fin setting.numprocs) :
    state.ThreadEffect rank event (state'.threads rank) := by
  cases step with
  | enterFirst _ stage => exact .update (.enters stage (Or.inl rfl)) rfl rank
  | enterAgain stage => exact .update (.enters stage (Or.inr rfl)) rfl rank
  | gather stage => exact .update (.moves stage .gather) rfl rank
  | write stage other => exact .update (.moves stage (.write other)) rfl rank
  | copy stage => exact .update (.moves stage .copy) rfl rank
  | flush stage => exact .update (.moves stage .flush) rfl rank
  | arrive stage => exact .update (.moves stage .arrive) rfl rank
  | leave stage => exact .update (.moves stage .leave) rfl rank
  | fail | join | run => exact .stays nofun

/-- What a step of a process in the cluster does to a memory. -/
private theorem act_mem {cluster cluster' : Cluster nprocs} {actor : Fin nprocs}
    {action : Action nprocs} (acts : Cluster.Step cluster (.act actor action) cluster')
    (rank : Fin nprocs) :
    (cluster' rank).mem =
      if actor = rank then action.memory (cluster rank).mem else (cluster rank).mem := by
  rw [acts.mem_ledger rank, Label.actionsOf]
  split <;> rfl

private theorem act_mem_same {cluster cluster' : Cluster nprocs} {actor : Fin nprocs}
    {action : Action nprocs} (acts : Cluster.Step cluster (.act actor action) cluster')
    (quiet : ∀ mem, action.memory mem = mem) (rank : Fin nprocs) :
    (cluster' rank).mem = (cluster rank).mem := by
  rw [act_mem acts, quiet, ite_self]

/-- What the cluster does to the memory of `rank` besides the collective. -/
theorem run_effect {label : Label nprocs} {cluster : Cluster nprocs}
    (acts : Cluster.Step state.cluster label cluster) (permitted : state.Permits label)
    (carries : state.Carries) (rank : Fin setting.numprocs) :
    state.MemoryEffect rank (.run label) (cluster (setting.worldRank rank)).mem := by
  have effect := acts.memory_effect (setting.worldRank rank)
  generalize (cluster (setting.worldRank rank)).mem = mem at effect
  cases effect with
  | same => exact .same
  | stored =>
      obtain ⟨free, safe⟩ := permitted.2 rank rfl
      refine .stored ?_ (safe mem rfl)
      rcases free rfl with outside | busy
      · exact outside
      · have stores := acts.own.2
        generalize cluster (setting.worldRank rank) = node at stores
        cases stores with
        | store _ idle => exact absurd idle (busy _)
  | landed =>
      obtain ⟨source, target, rfl, here, carried⟩ := carries.write acts
      cases setting.distinct here
      rw [carried.address, carried.data]
      exact .landed carried
  | fetched => exact (carries.no_read acts).elim

theorem memory_effect (step : Step state event state') (carries : state.Carries)
    (rank : Fin setting.numprocs) : state.MemoryEffect rank event (state'.node rank).mem := by
  cases step with
  | @enterFirst actor _ statics keys =>
      refine .of_eq ?_
      change (Function.update state.cluster _ _ (setting.worldRank rank)).mem = _
      by_cases same : rank = actor
      · subst same
        rw [Function.update_self]
      · rw [Function.update_of_ne fun equal => same (setting.distinct equal)]
  | enterAgain | gather | arrive | leave | join => exact .same
  | write _ _ _ _ acts => exact .of_eq (act_mem_same acts (fun _ => rfl) _)
  | fail _ _ _ _ _ acts => exact .of_eq (act_mem_same acts (fun _ => rfl) _)
  | flush _ acts => exact .of_eq (act_mem_same acts (fun _ => rfl) _)
  | @copy actor cluster stage acts =>
      have moved := act_mem acts (setting.worldRank rank)
      change state.MemoryEffect rank _ (cluster (setting.worldRank rank)).mem
      by_cases same : rank = actor
      · subst same
        rw [if_pos rfl, Action.memory, setting.copyOwn_eq] at moved
        rw [moved]
        exact .copied stage
      · rw [if_neg fun equal => same (setting.distinct equal).symm] at moved
        exact .of_eq moved
  | run acts permitted => exact run_effect acts permitted carries rank

/-- The write that the loop posts carries the block for `target` to its place. -/
theorem writeCall_wr {rank target : Fin setting.numprocs} {thread : Thread} {buffer : RdmaBuffer}
    {peer : Fin nprocs} (valid : thread.Valid setting rank) (inside : thread.stage ≠ .outside)
    (gathered : thread.stage ≠ .gathering)
    (found : thread.statics.sendbuffer (setting.args rank) = some buffer)
    (named : thread.statics.alltoallWorldRanks target = peer) (ctx : Context nprocs)
    (mem : ℕ → UInt8) :
    let wr := (setting.writeCall rank thread.statics buffer target peer).wr ctx
    setting.worldRank target = peer ∧ wr.opcode = .rdmaWrite ∧
      wr.remoteAddr = setting.recvBlock rank target ∧
      wr.gather mem = readBlock mem (setting.sendBlock rank target) setting.size := by
  have started := valid.started inside
  obtain ⟨recvbuf, worldRank⟩ := valid.tables started gathered target
  obtain ⟨_, found', located⟩ := valid.sendbuffer started
  cases Option.some.inj (found.symm.trans found')
  refine ⟨?_, rfl, ?_, ?_⟩
  · exact Fin.ext (worldRank.symm.trans named)
  · change sizeT _ = _
    rw [recvbuf, setting.recvBlock_eq]
  · rw [SendWr.gather_sgList rfl setting.size_lt, located, setting.sendBlock_eq]

/-- A step that is no post adds no request. -/
private theorem act_request {cluster cluster' : Cluster nprocs} {rank : Fin nprocs}
    {action : Action nprocs} (acts : Cluster.Step cluster (.act rank action) cluster')
    {actor peer : Fin nprocs} (none : ∀ node : Node nprocs, node.accepted peer action = [])
    {posted : Posted} (member : posted ∈ (cluster' actor).sendQueue peer) :
    posted ∈ (cluster actor).sendQueue peer := by
  rcases acts.sendQueue_origin member with old | ⟨_, acted, accepted⟩
  · exact old
  · cases acted
    rw [none] at accepted
    cases accepted

/-- A request that the cluster accepts besides the collective is a message. -/
theorem run_request {label : Label nprocs} {cluster : Cluster nprocs}
    (acts : Cluster.Step state.cluster label cluster) (permitted : state.Permits label)
    {actor peer : Fin nprocs} {posted : Posted} (member : posted ∈ (cluster actor).sendQueue peer)
    (opcode : posted.wr.opcode ≠ .send) : posted ∈ (state.cluster actor).sendQueue peer := by
  rcases acts.sendQueue_origin member with old | ⟨action, rfl, accepted⟩
  · exact old
  · obtain ⟨call, data, rfl, -, rfl⟩ := Node.accepted_origin accepted
    cases call with
    | zsend => exact absurd rfl opcode
    | write => cases permitted.1
    | read => cases permitted.1

/-- An RDMA request in a send queue was there before, or it is a write of the loop with
the block for the rank whose turn it is. -/
theorem request_origin (step : Step state event state') (coordinated : state.Coordinated)
    {actor peer : Fin nprocs} {posted : Posted}
    (member : posted ∈ (state'.cluster actor).sendQueue peer)
    (opcode : posted.wr.opcode ≠ .send) :
    posted ∈ (state.cluster actor).sendQueue peer ∨
      ∃ rank target, setting.worldRank rank = actor ∧ setting.worldRank target = peer ∧
        rank ≠ target ∧ (state.threads rank).stage = .writing target ∧
        posted.wr.opcode = .rdmaWrite ∧ posted.wr.remoteAddr = setting.recvBlock rank target ∧
        posted.data =
          readBlock (state.node rank).mem (setting.sendBlock rank target) setting.size := by
  cases step with
  | @enterFirst rank =>
      apply Or.inl
      change posted ∈ (Function.update state.cluster _ _ actor).sendQueue peer at member
      by_cases same : actor = setting.worldRank rank
      · subst same
        rw [Function.update_self] at member
        exact member
      · rw [Function.update_of_ne same] at member
        exact member
  | enterAgain | gather | arrive | leave | join => exact Or.inl member
  | @write rank dst buffer target outcome data cluster stage other found named acts =>
      rcases acts.sendQueue_origin member with old | ⟨action, acted, accepted⟩
      · exact Or.inl old
      · obtain ⟨call, bytes, rfl, dest, rfl⟩ := Node.accepted_origin accepted
        cases acted
        have valid := coordinated.valid rank
        have below := valid.dst dst stage
        obtain ⟨reached, isWrite, address, gathered⟩ := @writeCall_wr _ _ rank ⟨dst, below⟩ _ _ _
          valid (by simp [stage]) (by simp [stage]) found named (state.node rank).ctx
          (state.node rank).mem
        refine Or.inr ⟨rank, ⟨dst, below⟩, rfl, reached.trans dest, ?_, stage, isWrite, address,
          gathered⟩
        intro same
        exact other (congrArg Fin.val same).symm
  | fail _ _ _ _ _ acts => exact Or.inl (act_request acts (fun _ => rfl) member)
  | copy _ acts => exact Or.inl (act_request acts (fun _ => rfl) member)
  | flush _ acts => exact Or.inl (act_request acts (fun _ => rfl) member)
  | run acts permitted => exact Or.inl (run_request acts permitted member opcode)

/-- The write of the loop is in the send queue when its post succeeds. -/
theorem write_queued {rank target : Fin setting.numprocs} {call : PostCall nprocs}
    (step : Step state (.write rank call .accepted) state') (coordinated : state.Coordinated)
    (stage : (state.threads rank).stage = .writing target) :
    (state'.node rank).Unsettled (setting.worldRank target) := by
  cases step with
  | @write _ dst buffer peer _ data cluster located other found named acts =>
      cases located.symm.trans stage
      have valid := coordinated.valid rank
      obtain ⟨reached, isWrite, -, -⟩ := writeCall_wr valid (by simp [stage])
        (by simp [stage]) found named (state.node rank).ctx (state.node rank).mem
      subst reached
      have queued := acts.own.2.post_queued
      exact .queued queued (by simp [isWrite])

/-- A write that lands puts its block in its place. -/
theorem written_block {source rank : Fin setting.numprocs} {posted : Posted}
    {cluster : Cluster nprocs} (carried : state.Carried source rank posted)
    (acts : Cluster.Step state.cluster
      (.rdmaWrite (setting.worldRank source) (setting.worldRank rank) posted true) cluster) :
    readBlock (cluster (setting.worldRank rank)).mem (setting.recvBlock source rank) setting.size =
      state.want source rank := by
  have apart : setting.worldRank source ≠ setting.worldRank rank :=
    fun equal => carried.other (setting.distinct equal)
  have landed := acts.mem_ledger (setting.worldRank rank)
  simp only [Label.actionsOf, if_neg apart, List.nil_append, and_self, if_true, List.foldl_cons,
    List.foldl_nil, Action.memory, carried.address, carried.data] at landed
  have written := readBlock_writeBlock_self (state.node rank).mem (setting.recvBlock source rank)
    (state.want source rank)
  rw [State.want, length_readBlock] at written
  rw [landed]
  exact written

/-- What the cluster does keeps a write in flight or puts its block in its place. -/
theorem cluster_unsettled {labels : List (Label nprocs)} {label : Label nprocs}
    {cluster : Cluster nprocs} (acts : Cluster.Step state.cluster label cluster)
    (reached : (Cluster.system nprocs).Reaches labels state.cluster) (carries : state.Carries)
    {source rank : Fin setting.numprocs}
    (unsettled : (state.node source).Unsettled (setting.worldRank rank)) :
    (cluster (setting.worldRank source)).Unsettled (setting.worldRank rank) ∨
      readBlock (cluster (setting.worldRank rank)).mem (setting.recvBlock source rank)
        setting.size = state.want source rank := by
  by_cases writes : ∃ posted,
      label = .rdmaWrite (setting.worldRank source) (setting.worldRank rank) posted true
  · obtain ⟨posted, rfl⟩ := writes
    obtain ⟨source', rank', same, same', carried⟩ := carries.write acts
    cases setting.distinct same
    cases setting.distinct same'
    exact Or.inr (written_block carried acts)
  · apply Or.inl
    apply acts.unsettled reached unsettled
    intro action member effects
    rcases acts.effects member effects with written | ⟨posted, fetched, rfl⟩
    · exact writes written
    · exact carries.no_read acts

/-- A write in flight stays in flight or puts its block in its place. -/
theorem unsettled {labels : List (Label nprocs)} (step : Step state event state')
    (reached : (Cluster.system nprocs).Reaches labels state.cluster) (carries : state.Carries)
    {source rank : Fin setting.numprocs}
    (unsettled : (state.node source).Unsettled (setting.worldRank rank)) :
    (state'.node source).Unsettled (setting.worldRank rank) ∨
      state'.block source rank = state.want source rank := by
  cases step with
  | @enterFirst actor =>
      apply Or.inl
      change (Function.update state.cluster _ _ (setting.worldRank source)).Unsettled _
      by_cases same : source = actor
      · subst same
        rw [Function.update_self]
        cases unsettled with
        | queued member opcode => exact .queued member opcode
        | refused member undone => exact .refused member undone
        | failed member isSend status => exact .failed member isSend status
      · rw [Function.update_of_ne fun equal => same (setting.distinct equal)]
        exact unsettled
  | enterAgain | gather | arrive | leave | join => exact Or.inl unsettled
  | write _ _ _ _ acts => exact cluster_unsettled acts reached carries unsettled
  | fail _ _ _ _ _ acts => exact cluster_unsettled acts reached carries unsettled
  | copy _ acts => exact cluster_unsettled acts reached carries unsettled
  | flush _ acts => exact cluster_unsettled acts reached carries unsettled
  | run acts => exact cluster_unsettled acts reached carries unsettled

/-- The copy puts the own block in its place. -/
theorem copy_block {rank : Fin setting.numprocs} (step : Step state (.copy rank) state') :
    state'.block rank rank =
      readBlock (state.node rank).mem (setting.sendBlock rank rank) setting.size := by
  cases step with
  | @copy _ cluster stage acts =>
      have moved := act_mem acts (setting.worldRank rank)
      rw [if_pos rfl, Action.memory, setting.copyOwn_eq] at moved
      change readBlock (cluster (setting.worldRank rank)).mem _ _ = _
      have written := readBlock_writeBlock_self (state.node rank).mem (setting.recvBlock rank rank)
        (readBlock (state.node rank).mem (setting.sendBlock rank rank) setting.size)
      rw [length_readBlock] at written
      rw [moved, written]

end Step

end Ympi.Collective
