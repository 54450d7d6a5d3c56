import Ympi.Foundation.ChannelPrograms
import Ympi.Messaging.CallRuns
import Ympi.Messaging.Delivery
import Ympi.Messaging.ReceivePath
import Ympi.Messaging.SendAccounting

/-! # Clients of the messaging library

A program that runs on every rank and communicates by `YMPI_Zsend`, `YMPI_Zflush`,
`YMPI_Zrecv` and `YMPI_Return` only, as the tests and benchmarks do. The state of a program
says which call comes next, and what it goes on with once the call has its effect. A state of
all ranks is a cluster with a program state for each rank; every interaction of a call with
the HCA may interleave with everything that the other ranks do.
-/

namespace Ympi.Clients

open LinkedList Foundation Messaging

variable {nprocs : ℕ} {σ : Type}

/-- The next call of a process, and what the process goes on with after it. -/
inductive Command (nprocs : ℕ) (σ : Type) where
  | stop
  /-- `YMPI_Zsend` of `payload`, which the process has put at `&buf[offset]`. -/
  | zsend (buffer : RdmaBuffer) (offset : ℕ) (payload : List UInt8) (dest : Fin nprocs) (next : σ)
  | zflush (next : σ)
  | zrecv (source : Fin nprocs) (next : Message → σ)
  /-- `YMPI_Return` -/
  | giveBack (next : σ)

/-- Where a process may go on after the call. -/
inductive Command.Next : Command nprocs σ → σ → Prop where
  | zsend {buffer : RdmaBuffer} {offset : ℕ} {payload : List UInt8} {dest : Fin nprocs} {next : σ} :
      Next (.zsend buffer offset payload dest next) next
  | zflush {next : σ} : Next (.zflush next) next
  | zrecv {source : Fin nprocs} {next : Message → σ} (message : Message) :
      Next (.zrecv source next) (next message)
  | giveBack {next : σ} : Next (.giveBack next) next

/-- The action with which a process enters a call, or ends at one of its assertions. -/
inductive Command.Begins (node : Node nprocs) : Command nprocs σ → Action nprocs → Prop where
  | zsend {buffer : RdmaBuffer} {offset : ℕ} {payload : List UInt8} {dest : Fin nprocs} {next : σ}
      (outcome : PostOutcome) :
      Begins node (.zsend buffer offset payload dest next)
        (.post (.zsend buffer offset payload.length dest) outcome payload)
  | abort {buffer : RdmaBuffer} {offset : ℕ} {payload : List UInt8} {dest : Fin nprocs} {next : σ}
      {outcome : PostOutcome} {halt : Halt} :
      (PostCall.zsend buffer offset payload.length dest).perform node.ctx outcome = .error halt →
        Begins node (.zsend buffer offset payload dest next) (.halt halt)
  | zflush {next : σ} : Begins node (.zflush next) .zflush
  | zrecv {source : Fin nprocs} {next : Message → σ} :
      Begins node (.zrecv source next) (.zrecv source)
  | giveBack {next : σ} : Begins node (.giveBack next) .giveBack

/-- A process that posts sends what its program says. -/
theorem Command.Begins.eq_zsend {node : Node nprocs} {command : Command nprocs σ}
    {call : PostCall nprocs} {outcome : PostOutcome} {data : List UInt8}
    (begins : command.Begins node (.post call outcome data)) :
    ∃ buffer offset payload dest next, command = .zsend buffer offset payload dest next ∧
      call = .zsend buffer offset payload.length dest ∧ data = payload := by
  cases begins with
  | zsend => exact ⟨_, _, _, _, _, rfl, rfl, rfl⟩

/-- The program of each rank. It sends what fits into its buffer and into a receive buffer, and
flushes before more requests to one peer can be outstanding than a send queue holds. The limits of
`Bounded` and of `LeavesSent`, for the completion queue and for the bytes of requests under way, are
not part of it. -/
structure Client (nprocs : ℕ) (σ : Type) where
  command : Fin nprocs → σ → Command nprocs σ
  /-- The ranks that a rank may send to from a state on. -/
  peers : Fin nprocs → σ → Fin nprocs → Prop
  /-- A bound on the requests to a peer that a rank posts from a state on until it flushes. -/
  ahead : Fin nprocs → σ → Fin nprocs → ℕ
  peers_zsend : ∀ {rank state buffer offset payload dest next},
    command rank state = .zsend buffer offset payload dest next → peers rank state dest
  peers_next : ∀ {rank state next}, (command rank state).Next next →
    ∀ peer, peers rank next peer → peers rank state peer
  inBounds : ∀ {rank state buffer offset payload dest next},
    command rank state = .zsend buffer offset payload dest next →
      Context.inBounds buffer offset payload.length
  fits : ∀ {rank state buffer offset payload dest next},
    command rank state = .zsend buffer offset payload dest next → payload.length ≤ vbufBytes
  ahead_le : ∀ rank state peer, ahead rank state peer ≤ maxSendWrPerQp
  ahead_zsend : ∀ {rank state buffer offset payload dest next},
    command rank state = .zsend buffer offset payload dest next → ∀ peer,
      ahead rank next peer + (if peer = dest then 1 else 0) ≤ ahead rank state peer
  ahead_zrecv : ∀ {rank state source next}, command rank state = .zrecv source next →
    ∀ message peer, ahead rank (next message) peer ≤ ahead rank state peer
  ahead_giveBack : ∀ {rank state next}, command rank state = .giveBack next →
    ∀ peer, ahead rank next peer ≤ ahead rank state peer
  /-- A program stops only after it has flushed. -/
  ahead_stop : ∀ {rank state}, command rank state = .stop →
    ∀ peer, ahead rank state peer = maxSendWrPerQp

namespace Client

variable (client : Client nprocs σ)

/-- What the program of `rank` goes on with after a step of its process. `YMPI_Zrecv` has its
effect when it returns, the other calls when they are entered. -/
def advance (rank : Fin nprocs) (state : σ) (action : Action nprocs) : σ :=
  match client.command rank state, action with
  | .zsend _ _ _ _ next, .post .. => next
  | .zflush next, .zflush => next
  | .zrecv _ next, .received _ result payload => next ⟨payload, result.len⟩
  | .giveBack next, .giveBack => next
  | _, _ => state

/-- What the process of `rank` may do next. Between its calls it prepares its data, as far as
`LeavesSent` lets it, or enters the next call. A post to a send queue fails only when the send queue is full, one to the SRQ
only when the SRQ is, and a poll never does. -/
structure Follows (rank : Fin nprocs) (state : σ) (node : Node nprocs) (action : Action nprocs) :
    Prop where
  enters : ∀ ret, node.pc = .idle ret →
    (client.command rank state).Begins node action ∨ ∃ mem, action = .store mem
  accepts : ∀ call outcome data, action = .post call outcome data → outcome ≠ .accepted →
    maxSendWrPerQp ≤ node.outstanding call.dest
  polls : action ≠ .pollError
  posts : ∀ wr, action = .repost wr false → maxSrqWr ≤ node.srq.length

end Client

/-- A step of the network, or the completion of a request that has had its effect. -/
def Faultless : Label nprocs → Prop
  | .act _ (.complete _ _ status) => status = .success
  | .act _ _ => False
  | _ => True

/-- The cluster, and where the program of each rank is. -/
structure State (nprocs : ℕ) (σ : Type) where
  cluster : Cluster nprocs
  locals : Fin nprocs → σ

inductive Client.Step (client : Client nprocs σ) :
    State nprocs σ → Label nprocs → State nprocs σ → Prop where
  | process {state : State nprocs σ} {rank : Fin nprocs} {action : Action nprocs}
      {cluster : Cluster nprocs} :
      action.isProcess = true →
      client.Follows rank (state.locals rank) (state.cluster rank) action →
      Cluster.Step state.cluster (.act rank action) cluster →
        Step client state (.act rank action) {
          cluster := cluster
          locals := Function.update state.locals rank
            (client.advance rank (state.locals rank) action) }
  | hardware {state : State nprocs σ} {label : Label nprocs} {cluster : Cluster nprocs} :
      Faultless label → Cluster.Step state.cluster label cluster →
        Step client state label { state with cluster := cluster }

/-- The requests to `peer` that are not complete. -/
def underWay (node : Node nprocs) (peer : Fin nprocs) : List Posted :=
  (node.executed peer).map Executed.posted ++ node.sendQueue peer

/-- The HCA reads the bytes of a request when it sends them, unless they are inlined, so a process
leaves them alone until the request is complete. A program that waits for `YMPI_Zflush` does. -/
def LeavesSent (before : State nprocs σ) (label : Label nprocs) (_after : State nprocs σ) : Prop :=
  match label with
  | .act rank (.store mem) =>
      ∀ peer, ∀ posted ∈ underWay (before.cluster rank) peer,
        posted.wr.sendFlags.inlined = false →
          posted.wr.gather mem = posted.wr.gather (before.cluster rank).mem
  | _ => True

/-- There is a queue pair between the ranks, at either end. -/
structure Linked (cluster : Cluster nprocs) (rank peer : Fin nprocs) : Prop where
  here : (cluster rank).ctx.qps.qpList peer ≠ none
  there : (cluster peer).ctx.qps.qpList rank ≠ none

/-- All ranks are between their calls, and nothing is under way. A rank may hold buffers that
it has not given back. -/
structure Rested (held : Fin nprocs → ℕ) (setup : List (Label nprocs))
    (cluster : Cluster nprocs) : Prop where
  reached : (Cluster.system nprocs).Reaches setup cluster
  fits : ∀ rank, ∀ action ∈ nodeHistory rank setup, action.LengthFits
  posted : ∀ rank wr, Action.repost wr false ∉ nodeHistory rank setup
  idle : ∀ rank, ∃ ret, (cluster rank).pc = .idle ret
  settled : ∀ rank peer, (cluster rank).outstanding peer = 0
  unpolled : ∀ rank, (cluster rank).cq = []
  received : ∀ rank source, (cluster rank).pending source = []
  holds : ∀ rank, (cluster rank).fetchedIds.length = held rank

namespace Client

/-- The programs start in the states `start` on ranks that are at rest and have queue pairs to
those that they may send to. -/
structure Initial (client : Client nprocs σ) (start : Fin nprocs → σ) (held : Fin nprocs → ℕ)
    (state : State nprocs σ) : Prop where
  rested : ∃ setup, Rested held setup state.cluster
  locals : state.locals = start
  linked : ∀ rank peer, client.peers rank (start rank) peer → Linked state.cluster rank peer

/-- The transition system of the ranks that run the programs. -/
def system (client : Client nprocs σ) (start : Fin nprocs → σ) (held : Fin nprocs → ℕ) :
    LabelledSystem (State nprocs σ) (Label nprocs) where
  Initial := client.Initial start held
  Step := client.Step

/-- The runs in which the processes leave the bytes of their requests alone. -/
def careful (client : Client nprocs σ) (start : Fin nprocs → σ) (held : Fin nprocs → ℕ) :
    LabelledSystem (State nprocs σ) (Label nprocs) :=
  (client.system start held).restrict LeavesSent

/-- Every rank has come to the end of its program and returned from its last call. -/
structure Finished (client : Client nprocs σ) (state : State nprocs σ) : Prop where
  stopped : ∀ rank, client.command rank (state.locals rank) = .stop
  idle : ∀ rank, ∃ ret, (state.cluster rank).pc = .idle ret

end Client

end Ympi.Clients
