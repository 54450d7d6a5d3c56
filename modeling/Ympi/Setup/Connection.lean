import Ympi.Setup.QueuePairs

/-! # Connections between the processes

Every process sends each other one the number and the first packet number of its queue pair
for it, and all processes the identifier of its port. With what it gets it connects its
queue pairs.
-/

namespace Ympi.Setup

open Foundation Messaging

variable {nprocs : ℕ}

/-- What a process contributes to the collectives: `local_lid`, `local_psn_list` and
`local_qpn_list`. -/
structure Addresses (nprocs : ℕ) where
  lid : Int32
  psn : Fin nprocs → Int32
  qpn : Fin nprocs → Int32

/-- What a process knows of the others after the collectives. -/
structure Remote (nprocs : ℕ) where
  lidList : Fin nprocs → Int32
  psnList : Fin nprocs → Int32
  qpnList : Fin nprocs → Int32

namespace Process

variable (process : Process nprocs)

/-- The addresses of the process with the queue pairs `qpList`. -/
def addresses (qpList : Fin nprocs → Option QueuePair) : Addresses nprocs where
  lid := process.lid.toUInt32.toInt32
  psn peer := (process.lrand48 peer &&& 0xffffff).toInt32
  qpn peer :=
    match qpList peer with
    | some qp => qp.qpNum.toInt32
    | none => -1

/-- `YMPID_Init` up to the exchange of the addresses. -/
def prepare : Except Failure ((Fin nprocs → Option QueuePair) × Addresses nprocs) := do
  let (qpList, _) ← process.contextCreate
  if process.receivesPosted then
    if process.lid = 0 then .error (.returns 1)
    else return (qpList, process.addresses qpList)
  else .error (.returns (-1))

/-- The process gets to the collectives. -/
def isPrepared : Bool :=
  match process.prepare with
  | .ok _ => true
  | .error _ => false

/-- What the process contributes if it gets there. -/
def contribution : Addresses nprocs :=
  match process.prepare with
  | .ok (_, own) => own
  | .error _ => ⟨0, fun _ => 0, fun _ => 0⟩

/-- A turn of the loop of `YMPID_Context_connect`. -/
def connectQp (own : Addresses nprocs) (remote : Remote nprocs) (peer : Fin nprocs) (_ : Unit) :
    Option QueuePair → Except Failure (Unit × Option QueuePair)
  | none => .ok ((), none)
  | some qp =>
      let rtr := { qp with
        state := .rtr
        destQpNum := (remote.qpnList peer).toUInt32
        rqPsn := (remote.psnList peer).toUInt32
        dlid := (remote.lidList peer).toUInt32.toUInt16 }
      if process.toRtr peer then
        if process.toRts peer then
          .ok ((), some { rtr with state := .rts, sqPsn := (own.psn peer).toUInt32 })
        else .error (.returns 1)
      else .error (.returns 1)

/-- `YMPID_Context_connect` -/
def contextConnect (own : Addresses nprocs) (remote : Remote nprocs)
    (qpList : Fin nprocs → Option QueuePair) : Except Failure (Fin nprocs → Option QueuePair) := do
  let (_, connected) ← forEach (process.connectQp own remote) (List.finRange nprocs) () qpList
  return connected

end Process

variable (processes : Fin nprocs → Process nprocs)

/-- Both calls of `MPI_Alltoall` and the call of `MPI_Allgather`, seen from `rank`. -/
def exchange (rank : Fin nprocs) : Remote nprocs where
  lidList peer := (processes peer).contribution.lid
  psnList peer := (processes peer).contribution.psn rank
  qpnList peer := (processes peer).contribution.qpn rank

/-- `YMPID_Init` of `rank`: the queue pairs with which it returns 0, or what happens
instead. -/
def ympidInit (rank : Fin nprocs) : Except Failure (Fin nprocs → Option QueuePair) := do
  let (qpList, own) ← (processes rank).prepare
  if ∀ peer, (processes peer).isPrepared then
    match (processes rank).contextConnect own (exchange processes rank) qpList with
    | .ok connected => return connected
    | .error _ => .error (.returns (-1))
  else .error .waits

/-- `qp` is connected to `other`, a queue pair behind the port with identifier `lid`. -/
structure QueuePair.ConnectedTo (qp other : QueuePair) (lid : UInt16) : Prop where
  destQpNum : qp.destQpNum = other.qpNum
  dlid : qp.dlid = lid
  rqPsn : qp.rqPsn = other.sqPsn

/-- The number that stands for no queue pair in `local_qpn_list`. -/
def placeholderQpn : UInt32 :=
  (-1 : Int32).toUInt32

namespace Process

variable {process : Process nprocs}

theorem prepare_ok {qpList : Fin nprocs → Option QueuePair} {own : Addresses nprocs}
    (done : process.prepare = .ok (qpList, own)) :
    (∃ qpRank, process.contextCreate = .ok (qpList, qpRank)) ∧
      own = process.addresses qpList := by
  rw [prepare] at done
  obtain ⟨⟨created', qpRank⟩, created, done⟩ := exists_of_bind_ok done
  simp only at done
  split at done
  · split at done
    · cases done
    · cases done
      exact ⟨⟨qpRank, created⟩, rfl⟩
  · cases done

/-- A connected queue pair has the attributes that the lists say. -/
theorem connectQp_ok {own : Addresses nprocs} {remote : Remote nprocs} {peer : Fin nprocs}
    {old new : Option QueuePair} (done : process.connectQp own remote peer () old = .ok ((), new)) :
    new = old.map fun qp => { qp with
      state := .rts
      destQpNum := (remote.qpnList peer).toUInt32
      rqPsn := (remote.psnList peer).toUInt32
      dlid := (remote.lidList peer).toUInt32.toUInt16
      sqPsn := (own.psn peer).toUInt32 } := by
  cases old with
  | none =>
      cases done
      rfl
  | some qp =>
      rw [connectQp] at done
      simp only at done
      split at done
      · split at done
        · cases done
          rfl
        · cases done
      · cases done

/-- A connected context has the queue pairs that were created, each with the attributes that
the lists say. -/
theorem contextConnect_ok {own : Addresses nprocs} {remote : Remote nprocs}
    {qpList connected : Fin nprocs → Option QueuePair}
    (done : process.contextConnect own remote qpList = .ok connected) (peer : Fin nprocs) :
    connected peer = (qpList peer).map fun qp => { qp with
      state := .rts
      destQpNum := (remote.qpnList peer).toUInt32
      rqPsn := (remote.psnList peer).toUInt32
      dlid := (remote.lidList peer).toUInt32.toUInt16
      sqPsn := (own.psn peer).toUInt32 } := by
  rw [contextConnect] at done
  obtain ⟨result, looped, done⟩ := exists_of_bind_ok done
  cases done
  obtain ⟨_, _, turn⟩ := (forEach_ok looped (List.nodup_finRange _)).1 peer
    (List.mem_finRange peer)
  exact connectQp_ok turn

end Process

variable {processes}

/-- A process that returns 0 has connected the queue pairs that it created, and has taken part
in the exchange with its addresses. -/
theorem ympidInit_ok {rank : Fin nprocs} {connected : Fin nprocs → Option QueuePair}
    (done : ympidInit processes rank = .ok connected) :
    ∃ qpList qpRank, (processes rank).contextCreate = .ok (qpList, qpRank) ∧
      (processes rank).contribution = (processes rank).addresses qpList ∧
      (processes rank).contextConnect (processes rank).contribution (exchange processes rank)
        qpList = .ok connected := by
  rw [ympidInit] at done
  obtain ⟨⟨qpList, own⟩, prepared, done⟩ := exists_of_bind_ok done
  have contributed : (processes rank).contribution = own := by
    rw [Process.contribution, prepared]
  obtain ⟨⟨qpRank, created⟩, addressed⟩ := Process.prepare_ok prepared
  simp only at done
  split at done
  next =>
    split at done
    next connects =>
      cases done
      refine ⟨qpList, qpRank, created, contributed.trans addressed, ?_⟩
      rw [contributed]
      exact connects
    next => cases done
  next => cases done

/-- **What a process has after `YMPID_Init`.** It has a queue pair exactly for the peers that
it lists. The queue pair has the number and the packet number that the process contributed
for the peer, and the peer's contribution for the process as its destination. -/
theorem queuePair_of_returned {rank : Fin nprocs} {connected : Fin nprocs → Option QueuePair}
    (done : ympidInit processes rank = .ok connected) (peer : Fin nprocs) :
    ((processes rank).lists peer = false ∧ connected peer = none) ∨
    (processes rank).lists peer = true ∧ ∃ number,
      (processes rank).qpNum peer = some number ∧
      (processes rank).contribution.qpn peer = number.toInt32 ∧
      connected peer = some {
        qpNum := number
        state := .rts
        destQpNum := ((processes peer).contribution.qpn rank).toUInt32
        rqPsn := ((processes peer).contribution.psn rank).toUInt32
        dlid := (processes peer).contribution.lid.toUInt32.toUInt16
        sqPsn := ((processes rank).contribution.psn peer).toUInt32 } := by
  obtain ⟨qpList, qpRank, created, contributed, connects⟩ := ympidInit_ok done
  have entry := Process.contextConnect_ok connects peer
  rcases Process.contextCreate_ok created peer with
    ⟨unlisted, absent⟩ | ⟨listed, number, assigned, present⟩
  · refine Or.inl ⟨unlisted, ?_⟩
    rw [entry, absent]
    rfl
  · refine Or.inr ⟨listed, number, assigned, ?_, ?_⟩
    · rw [contributed, Process.addresses]
      simp only [present]
      rfl
    · rw [entry, present]
      rfl

/-- A process that returns 0 has contributed the identifier of its port. -/
theorem lid_of_returned {rank : Fin nprocs} {connected : Fin nprocs → Option QueuePair}
    (done : ympidInit processes rank = .ok connected) :
    (processes rank).contribution.lid.toUInt32.toUInt16 = (processes rank).lid := by
  obtain ⟨_, _, _, contributed, _⟩ := ympidInit_ok done
  rw [contributed]
  exact UInt16.toUInt16_toUInt32 _

/-- No queue pair of a process has the number that stands for none. -/
theorem Process.qpNum_ne_placeholder {process : Process nprocs} {peer : Fin nprocs}
    {number : UInt32} (assigned : process.qpNum peer = some number) :
    number ≠ placeholderQpn := by
  rintro rfl
  exact absurd (process.qpNum_lt peer _ assigned) (by decide)

/-- **Connections pair up.** When all processes have returned 0 and list each other
symmetrically, a process has a queue pair for a peer exactly when it lists it. The queue
pair and the one that the peer has for the process are then ready to send and connected to
each other. -/
theorem connections_pair_up (final : Fin nprocs → Fin nprocs → Option QueuePair)
    (symmetric : ∀ i j, (processes i).lists j = (processes j).lists i)
    (returned : ∀ rank, ympidInit processes rank = .ok (final rank)) (i j : Fin nprocs) :
    ((final i j).isSome = (processes i).lists j) ∧
    ∀ qp, final i j = some qp →
      (processes i).qpNum j = some qp.qpNum ∧ qp.state = .rts ∧
      qp.destQpNum ≠ placeholderQpn ∧
      ∃ other, final j i = some other ∧
        qp.ConnectedTo other (processes j).lid ∧ other.ConnectedTo qp (processes i).lid := by
  rcases queuePair_of_returned (returned i) j with
    ⟨unlisted, absent⟩ | ⟨listed, number, assigned, contributed, present⟩
  · rw [absent, unlisted]
    refine ⟨rfl, ?_⟩
    intro qp impossible
    cases impossible
  · rcases queuePair_of_returned (returned j) i with
      ⟨unlisted, _⟩ | ⟨_, number', assigned', contributed', present'⟩
    · rw [← symmetric i j, listed] at unlisted
      cases unlisted
    have destination : ((processes j).contribution.qpn i).toUInt32 = number' := by
      rw [contributed']
      exact UInt32.toUInt32_toInt32 _
    have source : ((processes i).contribution.qpn j).toUInt32 = number := by
      rw [contributed]
      exact UInt32.toUInt32_toInt32 _
    rw [present, listed]
    refine ⟨rfl, ?_⟩
    intro qp held
    cases held
    refine ⟨assigned, rfl, ?_, _, present', ?_, ?_⟩
    · rw [destination]
      exact Process.qpNum_ne_placeholder assigned'
    · exact ⟨destination, lid_of_returned (returned j), rfl⟩
    · exact ⟨source, lid_of_returned (returned i), rfl⟩

/-- Three processes: the middle one passes `NULL`, the others list only the middle one. -/
def star (rank : Fin 3) : Process 3 where
  targetRankList :=
    if rank.val = 1 then none else some fun peer => if peer.val = 1 then 1 else 0
  opened := true
  qpNum peer := some (UInt32.ofNat (64 * rank.val + peer.val))
  toInit _ := true
  receivesPosted := true
  lid := UInt16.ofNat (rank.val + 1)
  lrand48 peer := UInt32.ofNat (1000 * rank.val + peer.val)
  toRtr _ := true
  toRts _ := true
  qpNum_lt := by
    rintro peer number ⟨⟩
    revert rank peer
    decide

/-- The queue pairs that a process of `star` has after `YMPID_Init`. -/
def starQueuePairs (rank : Fin 3) : Fin 3 → Option QueuePair :=
  match ympidInit star rank with
  | .ok connected => connected
  | .error _ => fun _ => none

theorem connections_pair_up_star :
    starQueuePairs 0 2 = none ∧ ∃ qp other, starQueuePairs 1 2 = some qp ∧
      starQueuePairs 2 1 = some other ∧ qp.ConnectedTo other 3 ∧ other.ConnectedTo qp 2 := by
  have symmetric : ∀ i j, (star i).lists j = (star j).lists i := by decide
  have returned : ∀ rank, ympidInit star rank = .ok (starQueuePairs rank) := by
    intro rank
    match rank with
    | 0 => rfl
    | 1 => rfl
    | 2 => rfl
  refine ⟨rfl, ?_⟩
  obtain ⟨_, _, _, other, held, connected⟩ :=
    (connections_pair_up starQueuePairs symmetric returned 1 2).2 _ rfl
  exact ⟨_, other, rfl, held, connected⟩

end Ympi.Setup
