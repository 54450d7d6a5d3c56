import Ympi.Foundation.Rotation
import Ympi.Messaging.Cluster

/-! # The all-to-all collective

`YMPI_Alltoall_write` and `YMPI_Alltoall_write_ptr`, run by the ranks of one
communicator. Both remember in static variables what a first call found out: the
buffers, and by three gathers the addresses, keys and world ranks of all ranks of the
communicator. They share the loop of writes, the copy of the own block, the flush and
the barrier over all ranks of the world.

A state is a cluster, a thread for each rank of the communicator, and the barrier.
The library calls of the collective are steps of the cluster, so every interaction
with the HCA may interleave with everything that the other ranks do.
-/

namespace Ympi.Collective

open LinkedList Foundation Messaging

variable {nprocs : ℕ}

/-- `MAX_NPROCS`: the length of the static tables. -/
def maxNprocs : ℕ := 65536

/-- The buffers of a call, as handles for `YMPI_Alltoall_write` or as pointers for
`YMPI_Alltoall_write_ptr`. -/
inductive Args where
  | handles (sendbuffer recvbuffer : RdmaBuffer)
  | pointers (sendbuf recvbuf : ℕ)

/-- The keys that `ibv_reg_mr` chooses for the two buffers of a call with pointers. -/
structure Keys where
  sendLkey : ℕ
  sendRkey : ℕ
  recvLkey : ℕ
  recvRkey : ℕ

/-- `YMPID_Register` with `YMPI_BUFFER_TYPE_REMOTE_RW`. -/
def registerRw (buf bytes lkey rkey : ℕ) : RdmaBuffer where
  buf := buf
  bytes := bytes
  mr := {
    addr := buf
    length := bytes
    lkey := lkey
    rkey := rkey
    remoteWrite := true
    remoteRead := true }

namespace Args

/-- `sendbuf`, which a call with handles gets from `YMPI_Get_buffer`. -/
def sendbuf : Args → ℕ
  | .handles sendbuffer _ => sendbuffer.buf
  | .pointers sendbuf _ => sendbuf

/-- `recvbuf`, which a call with handles gets from `YMPI_Get_buffer`. -/
def recvbuf : Args → ℕ
  | .handles _ recvbuffer => recvbuffer.buf
  | .pointers _ recvbuf => recvbuf

/-- The buffers of a first call. With pointers it registers `bytes * numprocs` bytes
of each, where `bytes` is already the size for all ranks. -/
def registered (sendsize numprocs : ℕ) (keys : Keys) : Args → RdmaBuffer × RdmaBuffer
  | .handles sendbuffer recvbuffer => (sendbuffer, recvbuffer)
  | .pointers sendbuf recvbuf =>
      let bytes := sizeT (sendsize * numprocs)
      (registerRw sendbuf (sizeT (bytes * numprocs)) keys.sendLkey keys.sendRkey,
        registerRw recvbuf (sizeT (bytes * numprocs)) keys.recvLkey keys.recvRkey)

/-- The registrations that a first call adds. -/
def registrations (buffers : RdmaBuffer × RdmaBuffer) : Args → List Mr
  | .handles _ _ => []
  | .pointers _ _ => [buffers.2.mr, buffers.1.mr]

end Args

/-- The static variables of the collective. -/
structure Statics where
  firstCall : Bool
  lastSendbuf : ℕ
  lastRecvbuf : ℕ
  lastSend : Option RdmaBuffer
  lastRecv : Option RdmaBuffer
  lastComm : Option ℕ
  recvRbufList : ℕ → ℕ
  recvRkeyList : ℕ → ℕ
  alltoallWorldRanks : ℕ → ℕ

namespace Statics

/-- The static variables before any call. -/
def init : Statics where
  firstCall := true
  lastSendbuf := 0
  lastRecvbuf := 0
  lastSend := none
  lastRecv := none
  lastComm := none
  recvRbufList := fun _ => 0
  recvRkeyList := fun _ => 0
  alltoallWorldRanks := fun _ => 0

/-- What a first call stores before the gathers. -/
def first (statics : Statics) (comm : ℕ) (args : Args) (buffers : RdmaBuffer × RdmaBuffer) :
    Except Halt Statics :=
  let stored := { statics with
    firstCall := false
    lastSend := some buffers.1
    lastRecv := some buffers.2
    lastComm := some comm }
  match args with
  | .handles _ recvbuffer => if recvbuffer.buf = 0 then .error .assertion else .ok stored
  | .pointers sendbuf recvbuf =>
      if sendbuf = 0 ∨ recvbuf = 0 then .error .assertion
      else .ok { stored with lastSendbuf := sendbuf, lastRecvbuf := recvbuf }

/-- The assertions of a later call. -/
def again (statics : Statics) (comm : ℕ) : Args → Except Halt Unit
  | .handles sendbuffer recvbuffer =>
      if statics.lastSend = some sendbuffer ∧ statics.lastRecv = some recvbuffer ∧
        statics.lastComm = some comm then .ok () else .error .assertion
  | .pointers sendbuf recvbuf =>
      if statics.lastSendbuf = sendbuf ∧ statics.lastRecvbuf = recvbuf ∧
        statics.lastComm = some comm then .ok () else .error .assertion

/-- The variable `sendbuffer` in the loop. -/
def sendbuffer (statics : Statics) : Args → Option RdmaBuffer
  | .handles sendbuffer _ => some sendbuffer
  | .pointers _ _ => statics.lastSend

end Statics

/-- What a rank contributes to the three gathers. -/
structure Contribution where
  rkey : ℕ
  recvbuf : ℕ
  worldRank : ℕ

/-- The three calls of `MPI_Allgather`: entry `i` of each table comes from rank `i`. -/
def Statics.gather (statics : Statics) {numprocs : ℕ} (offers : Fin numprocs → Contribution) :
    Statics :=
  let table (field : Contribution → ℕ) (old : ℕ → ℕ) (i : ℕ) : ℕ :=
    if inside : i < numprocs then field (offers ⟨i, inside⟩) else old i
  { statics with
    recvRkeyList := table Contribution.rkey statics.recvRkeyList
    recvRbufList := table Contribution.recvbuf statics.recvRbufList
    alltoallWorldRanks := table Contribution.worldRank statics.alltoallWorldRanks }

/-- The caller's buffers hold `bytes` bytes each, which lie in the address space with
the address past their end and do not overlap. -/
structure Args.Hold (args : Args) (bytes : ℕ) : Prop where
  sendbuf_ne : args.sendbuf ≠ 0
  recvbuf_ne : args.recvbuf ≠ 0
  sendRoom : args.sendbuf + bytes < 2 ^ 64
  recvRoom : args.recvbuf + bytes < 2 ^ 64
  apart : args.sendbuf + bytes ≤ args.recvbuf ∨ args.recvbuf + bytes ≤ args.sendbuf

/-- What stays the same in all calls: the communicator, whose ranks are any ranks of
the world and fit the tables, the size of a block and the buffers of each rank. -/
structure Setting (nprocs : ℕ) where
  comm : ℕ
  numprocs : ℕ
  worldRank : Fin numprocs → Fin nprocs
  size : ℕ
  args : Fin numprocs → Args
  distinct : Function.Injective worldRank
  fitsTables : numprocs ≤ maxNprocs
  size_lt : size < 2 ^ 32
  buffers : ∀ rank, (args rank).Hold (numprocs * size)

namespace Setting

variable (setting : Setting nprocs)

/-- The address of the block for `target` in the send buffer of `rank`. -/
def sendBlock (rank target : Fin setting.numprocs) : ℕ :=
  (setting.args rank).sendbuf + target * setting.size

/-- The address of the block of `source` in the receive buffer of `rank`. -/
def recvBlock (source rank : Fin setting.numprocs) : ℕ :=
  (setting.args rank).recvbuf + source * setting.size

/-- The address belongs to one of the blocks of the receive buffer of `rank`. -/
def InBlocks (rank : Fin setting.numprocs) (address : ℕ) : Prop :=
  (setting.args rank).recvbuf ≤ address ∧
    address < (setting.args rank).recvbuf + setting.numprocs * setting.size

/-- The buffers of the first call of `rank`. -/
def registered (rank : Fin setting.numprocs) (keys : Keys) : RdmaBuffer × RdmaBuffer :=
  (setting.args rank).registered setting.size setting.numprocs keys

/-- The call of `YMPI_Write` in the loop. -/
def writeCall (rank : Fin setting.numprocs) (statics : Statics) (buffer : RdmaBuffer) (dst : ℕ)
    (peer : Fin nprocs) : PostCall nprocs :=
  .write buffer (sizeT (dst * setting.size)) setting.size peer (statics.recvRkeyList dst)
    (sizeT (statics.recvRbufList dst + sizeT (rank * setting.size)))

/-- The `memcpy` of the own block. -/
def copyOwn (rank : Fin setting.numprocs) (mem : ℕ → UInt8) : ℕ → UInt8 :=
  writeBlock mem ((setting.args rank).recvbuf + sizeT (rank * setting.size))
    (readBlock mem ((setting.args rank).sendbuf + sizeT (rank * setting.size)) setting.size)

end Setting

/-- Where a rank of the communicator is. -/
inductive Stage where
  /-- Between two calls of the collective. -/
  | outside
  /-- In the gathers of the first call. -/
  | gathering
  /-- At the test of the loop. -/
  | writing (dst : ℕ)
  /-- About to call `YMPI_Zflush`. -/
  | copied
  | flushing
  | barrier
  deriving DecidableEq

/-- A rank of the communicator. `calls` counts its calls, and `entryMem` is its memory
when it entered the last one; no step depends on them. -/
structure Thread where
  statics : Statics
  stage : Stage
  offered : Option Contribution
  calls : ℕ
  entryMem : ℕ → UInt8

/-- The ranks, the threads of the communicator, and how often each rank of the world
has entered `MPI_Barrier(MPI_COMM_WORLD)`. -/
structure State (setting : Setting nprocs) where
  cluster : Cluster nprocs
  threads : Fin setting.numprocs → Thread
  arrived : Fin nprocs → ℕ

inductive Event (setting : Setting nprocs) where
  /-- A rank calls the collective. -/
  | enter (rank : Fin setting.numprocs)
  | gather (rank : Fin setting.numprocs)
  | write (rank : Fin setting.numprocs) (call : PostCall nprocs) (outcome : PostOutcome)
  /-- An assertion of `YMPI_Write` fails. -/
  | fail (rank : Fin setting.numprocs)
  | copy (rank : Fin setting.numprocs)
  | flush (rank : Fin setting.numprocs)
  /-- A rank enters the barrier. -/
  | arrive (rank : Fin setting.numprocs)
  /-- A rank leaves the barrier and returns. -/
  | leave (rank : Fin setting.numprocs)
  /-- A rank outside the communicator enters the barrier. -/
  | join (rank : Fin nprocs)
  /-- The cluster goes on: the network, the HCAs, the library call in progress of a
  rank, or what a process does outside the collective. -/
  | run (label : Label nprocs)

/-- The rank that moves on in its call. -/
def Event.actor {setting : Setting nprocs} : Event setting → Option (Fin setting.numprocs)
  | .enter rank => some rank
  | .gather rank => some rank
  | .write rank _ _ => some rank
  | .copy rank => some rank
  | .flush rank => some rank
  | .arrive rank => some rank
  | .leave rank => some rank
  | _ => none

/-- The step starts no RDMA request. -/
def isMessaging : Action nprocs → Bool
  | .post (.zsend ..) _ _ => true
  | .post .. => false
  | _ => true

namespace State

variable {setting : Setting nprocs} (state : State setting)

/-- The node of a rank of the communicator. -/
abbrev node (rank : Fin setting.numprocs) : Node nprocs :=
  state.cluster (setting.worldRank rank)

/-- Replace the thread of a rank. -/
def withThread (rank : Fin setting.numprocs) (thread : Thread) : State setting :=
  { state with threads := Function.update state.threads rank thread }

/-- A rank of the communicator acts by itself: it is outside the collective, or in a
library call. -/
def Free (rank : Fin setting.numprocs) : Prop :=
  (state.threads rank).stage = .outside ∨ ∀ ret, (state.node rank).pc ≠ .idle ret

/-- A store leaves alone the blocks of those ranks that are already in a call that
`rank` has not entered. -/
def StoreSafe (rank : Fin setting.numprocs) (mem : ℕ → UInt8) : Prop :=
  ∀ source, (state.threads rank).calls < (state.threads source).calls →
    readBlock mem (setting.recvBlock source rank) setting.size =
      readBlock (state.node rank).mem (setting.recvBlock source rank) setting.size

/-- What the cluster may do besides the collective. A process sends and receives
messages and changes its memory between its calls of the collective, but starts no
RDMA requests of its own. -/
def Permits : Label nprocs → Prop
  | .act actor action =>
      isMessaging action = true ∧ ∀ rank, setting.worldRank rank = actor →
        (action.isProcess = true → state.Free rank) ∧
        ∀ mem, action = .store mem → state.StoreSafe rank mem
  | _ => True

end State

section Step

variable {setting : Setting nprocs}

inductive Step : State setting → Event setting → State setting → Prop where
  | enterFirst {state : State setting} {rank : Fin setting.numprocs} {ret : Int}
      {statics : Statics} (keys : Keys) :
      (state.threads rank).stage = .outside → (state.node rank).pc = .idle ret →
      (state.threads rank).statics.firstCall = true →
      (state.threads rank).statics.first setting.comm (setting.args rank)
        (setting.registered rank keys) = .ok statics →
        Step state (.enter rank) { state.withThread rank {
            statics := statics
            stage := .gathering
            offered := some ⟨(setting.registered rank keys).2.mr.rkey,
              (setting.args rank).recvbuf, setting.worldRank rank⟩
            calls := (state.threads rank).calls + 1
            entryMem := (state.node rank).mem } with
          cluster := Function.update state.cluster (setting.worldRank rank) { state.node rank with
            mrs := (setting.args rank).registrations (setting.registered rank keys) ++
              (state.node rank).mrs } }
  | enterAgain {state : State setting} {rank : Fin setting.numprocs} {ret : Int} :
      (state.threads rank).stage = .outside → (state.node rank).pc = .idle ret →
      (state.threads rank).statics.firstCall = false →
      (state.threads rank).statics.again setting.comm (setting.args rank) = .ok () →
        Step state (.enter rank) (state.withThread rank { state.threads rank with
          stage := .writing ((rank + 1) % setting.numprocs)
          calls := (state.threads rank).calls + 1
          entryMem := (state.node rank).mem })
  | gather {state : State setting} {rank : Fin setting.numprocs}
      {offers : Fin setting.numprocs → Contribution} :
      (state.threads rank).stage = .gathering →
      (∀ peer, (state.threads peer).offered = some (offers peer)) →
        Step state (.gather rank) (state.withThread rank { state.threads rank with
          statics := (state.threads rank).statics.gather offers
          stage := .writing ((rank + 1) % setting.numprocs) })
  /-- The loop goes on whatever `YMPI_Write` returns. -/
  | write {state : State setting} {rank : Fin setting.numprocs} {dst : ℕ} {buffer : RdmaBuffer}
      {peer : Fin nprocs} {outcome : PostOutcome} {data : List UInt8} {cluster : Cluster nprocs} :
      (state.threads rank).stage = .writing dst → dst ≠ rank →
      (state.threads rank).statics.sendbuffer (setting.args rank) = some buffer →
      (state.threads rank).statics.alltoallWorldRanks dst = peer →
      Cluster.Step state.cluster (.act (setting.worldRank rank) (.post
        (setting.writeCall rank (state.threads rank).statics buffer dst peer) outcome data))
        cluster →
        Step state (.write rank
            (setting.writeCall rank (state.threads rank).statics buffer dst peer) outcome)
          { state.withThread rank { state.threads rank with
              stage := .writing ((dst + 1) % setting.numprocs) } with
            cluster := cluster }
  | fail {state : State setting} {rank : Fin setting.numprocs} {dst : ℕ} {buffer : RdmaBuffer}
      {peer : Fin nprocs} {outcome : PostOutcome} {halt : Halt} {cluster : Cluster nprocs} :
      (state.threads rank).stage = .writing dst → dst ≠ rank →
      (state.threads rank).statics.sendbuffer (setting.args rank) = some buffer →
      (state.threads rank).statics.alltoallWorldRanks dst = peer →
      (setting.writeCall rank (state.threads rank).statics buffer dst peer).perform
        (state.node rank).ctx outcome = .error halt →
      Cluster.Step state.cluster (.act (setting.worldRank rank) (.halt halt)) cluster →
        Step state (.fail rank) { state with cluster := cluster }
  | copy {state : State setting} {rank : Fin setting.numprocs} {cluster : Cluster nprocs} :
      (state.threads rank).stage = .writing rank →
      Cluster.Step state.cluster (.act (setting.worldRank rank)
        (.store (setting.copyOwn rank (state.node rank).mem))) cluster →
        Step state (.copy rank) { state.withThread rank { state.threads rank with
          stage := .copied } with
          cluster := cluster }
  | flush {state : State setting} {rank : Fin setting.numprocs} {cluster : Cluster nprocs} :
      (state.threads rank).stage = .copied →
      Cluster.Step state.cluster (.act (setting.worldRank rank) .zflush) cluster →
        Step state (.flush rank) { state.withThread rank { state.threads rank with
          stage := .flushing } with
          cluster := cluster }
  | arrive {state : State setting} {rank : Fin setting.numprocs} {ret : Int} :
      (state.threads rank).stage = .flushing → (state.node rank).pc = .idle ret →
        Step state (.arrive rank) { state.withThread rank { state.threads rank with
          stage := .barrier } with
          arrived := Function.update state.arrived (setting.worldRank rank)
            (state.arrived (setting.worldRank rank) + 1) }
  | leave {state : State setting} {rank : Fin setting.numprocs} :
      (state.threads rank).stage = .barrier →
      (∀ peer, state.arrived (setting.worldRank rank) ≤ state.arrived peer) →
        Step state (.leave rank) (state.withThread rank { state.threads rank with
          stage := .outside })
  /-- A rank outside the communicator enters the barrier again once it could leave it. -/
  | join {state : State setting} {outsider : Fin nprocs} :
      (∀ rank, setting.worldRank rank ≠ outsider) →
      (∀ peer, state.arrived outsider ≤ state.arrived peer) →
        Step state (.join outsider) { state with
          arrived := Function.update state.arrived outsider (state.arrived outsider + 1) }
  | run {state : State setting} {label : Label nprocs} {cluster : Cluster nprocs} :
      Cluster.Step state.cluster label cluster → state.Permits label →
        Step state (.run label) { state with cluster := cluster }

/-- The ranks start messaging together, and no one has called the collective yet. -/
structure Initial (state : State setting) : Prop where
  cluster : ∀ rank, (state.cluster rank).Initial
  statics : ∀ rank, (state.threads rank).statics = .init
  stage : ∀ rank, (state.threads rank).stage = .outside
  offered : ∀ rank, (state.threads rank).offered = none
  calls : ∀ rank, (state.threads rank).calls = 0
  arrived : ∀ rank, state.arrived rank = 0

end Step

/-- The transition system of the ranks of a communicator and all around them. -/
def system (setting : Setting nprocs) : LabelledSystem (State setting) (Event setting) where
  Initial := Initial
  Step := Step

end Ympi.Collective
