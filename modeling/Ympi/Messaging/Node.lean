import Ympi.Foundation.ByteStore
import Ympi.Foundation.Execution
import Ympi.Messaging.Calls

/-! # A process with its HCA

A node is the context of a process, the point its current call is at, the memory
of the application, and the verbs objects: the shared receive queue, the completion
queue, and for each queue pair the requests that the HCA has not executed yet and
those it has executed but not completed. `Node.Step` lists what a node can do. The
process runs one call at a time, but every interaction of a call with the verbs
layer is a step of its own, and the HCA may act between any two of them.

The bytes that a send or write request carries are those at its post. The caller
leaves them alone until the request is complete, so it does not matter when the
HCA reads them.
-/

namespace Ympi.Messaging

open LinkedList Foundation

variable {nprocs : ℕ}

/-- A request accepted by `ibv_post_send` with the bytes it carries. -/
structure Posted where
  wr : SendWr
  data : List UInt8

/-- A request that the HCA has executed; `done` tells whether it had its effect. -/
structure Executed where
  posted : Posted
  done : Bool

structure Node (nprocs : ℕ) where
  ctx : Context nprocs
  pc : Pc nprocs
  srq : List RecvWr
  cq : List Wc
  sendQueue : Fin nprocs → List Posted
  executed : Fin nprocs → List Executed
  mem : ℕ → UInt8
  mrs : List Mr

/-- What a node does in a step. The first group is the process, the second its HCA. -/
inductive Action (nprocs : ℕ) where
  /-- A posting call; `data` are the bytes from `&buf[offset]` on. -/
  | post (call : PostCall nprocs) (outcome : PostOutcome) (data : List UInt8)
  | zflush
  | zrecv (source : Fin nprocs)
  /-- A call of `YMPI_Return`. -/
  | giveBack
  | test (loop : Loop nprocs)
  /-- `YMPI_Zrecv` returns; `payload` are the bytes behind the pointer at that moment. -/
  | received (source : Fin nprocs) (result : Received) (payload : List UInt8)
  | poll (count : ℕ)
  | pollError
  | handle (wc : Wc)
  | repost (wr : RecvWr) (posted : Bool)
  | returned
  | halt (halt : Halt)
  /-- The application changes its memory. -/
  | store (mem : ℕ → UInt8)
  | register (mr : Mr)
  /-- The oldest request for `peer` takes effect, or fails to. A read brings `fetched`. -/
  | execute (peer : Fin nprocs) (posted : Posted) (done : Bool) (fetched : List UInt8)
  | complete (peer : Fin nprocs) (executed : Executed) (status : WcStatus)
  /-- A message from `peer` arrives and consumes the receive request `wr`. -/
  | arrive (peer : Fin nprocs) (wr : RecvWr) (payload : List UInt8)
  /-- An RDMA write lands in the memory of the application. -/
  | land (address : ℕ) (data : List UInt8)

namespace Action

/-- The steps that the HCA takes together with that of another node. -/
def isNetwork : Action nprocs → Bool
  | .execute .. => true
  | .arrive .. => true
  | .land .. => true
  | _ => false

/-- The process itself takes the step, not its HCA. -/
def isProcess : Action nprocs → Bool
  | .complete .. => false
  | action => !action.isNetwork

theorem isProcess_network {action : Action nprocs} (network : action.isNetwork = true) :
    action.isProcess = false := by
  cases action with
  | execute | arrive | land => rfl
  | _ => cases network

theorem isNetwork_process {action : Action nprocs} (own : action.isProcess = true) :
    action.isNetwork = false := by
  cases action with
  | execute | arrive | land => cases own
  | _ => rfl

end Action

namespace PostCall

/-- The address `&buf[offset]` of the call and the number of bytes it names. -/
def range : PostCall nprocs → ℕ × ℕ
  | .zsend buffer offset bytes _ => (sizeT (buffer.buf + offset), bytes)
  | .write buffer offset bytes _ _ _ => (sizeT (buffer.buf + offset), bytes)
  | .read buffer offset bytes _ _ _ => (sizeT (buffer.buf + offset), bytes)

end PostCall

/-- The bytes that a request describes. -/
def SendWr.gather (wr : SendWr) (mem : ℕ → UInt8) : List UInt8 :=
  match wr.sgList with
  | none => []
  | some sge => readBlock mem sge.addr sge.length

/-- A request describes the bytes that its caller named. -/
theorem SendWr.gather_sgList {wr : SendWr} {buffer : RdmaBuffer} {offset bytes : ℕ}
    (listed : wr.sgList = Context.sgList buffer offset bytes) (fits : bytes < 2 ^ 32)
    (mem : ℕ → UInt8) : wr.gather mem = readBlock mem (sizeT (buffer.buf + offset)) bytes := by
  unfold SendWr.gather
  rw [listed, Context.sgList]
  by_cases empty : bytes = 0
  · subst empty
    rfl
  · simp only [if_neg empty, uint32T, Nat.mod_eq_of_lt fits]

/-- The memory after the fetched bytes of a read request have been scattered. -/
def SendWr.scatter (wr : SendWr) (mem : ℕ → UInt8) (fetched : List UInt8) : ℕ → UInt8 :=
  match wr.opcode, wr.sgList with
  | .rdmaRead, some sge => writeBlock mem sge.addr fetched
  | _, _ => mem

/-- The completion of a receive request: one that the message does not fit into
fails. -/
def recvWc (wr : RecvWr) (qpNum : ℕ) (payload : List UInt8) : Wc where
  wrId := wr.wrId
  status := if payload.length ≤ wr.sge.length then .success else wcLocLenErr
  byteLen := payload.length
  qpNum := qpNum

namespace Node

/-- Completions that `process_wc` has not handled, in the order in which it will:
the polled batch and then the completion queue. -/
def unhandled (node : Node nprocs) : List Wc :=
  node.pc.batch ++ node.cq

/-- The call in progress ends the process at this point. -/
inductive Fails (node : Node nprocs) : Halt → Prop where
  | post {ret : Int} {call : PostCall nprocs} {outcome : PostOutcome} {halt : Halt} :
      node.pc = .idle ret → call.perform node.ctx outcome = .error halt → Fails node halt
  | recv {source : Fin nprocs} {halt : Halt} :
      node.pc = .head (.recv source) → node.ctx.recvHead source = .error halt → Fails node halt
  | handle {loop : Loop nprocs} {wc : Wc} {rest : List Wc} {halt : Halt} :
      node.pc = .handling loop (wc :: rest) → node.ctx.processWc wc = .error halt →
        Fails node halt
  | giveBack {halt : Halt} :
      node.pc = .returning → node.ctx.returnHead = .error halt → Fails node halt

inductive Step : Node nprocs → Action nprocs → Node nprocs → Prop where
  | postAccepted {node : Node nprocs} {ret : Int} {call : PostCall nprocs}
      {ctx : Context nprocs} {pc : Pc nprocs} :
      node.pc = .idle ret → call.perform node.ctx .accepted = .ok (ctx, pc) →
        Step node (.post call .accepted (readBlock node.mem call.range.1 call.range.2))
          { node with
            ctx := ctx
            pc := pc
            sendQueue := Function.update node.sendQueue call.dest
              (node.sendQueue call.dest ++
                [⟨call.wr node.ctx, (call.wr node.ctx).gather node.mem⟩]) }
  | postRefused {node : Node nprocs} {ret : Int} {call : PostCall nprocs} {outcome : PostOutcome}
      {ctx : Context nprocs} {pc : Pc nprocs} :
      node.pc = .idle ret → outcome ≠ .accepted → call.perform node.ctx outcome = .ok (ctx, pc) →
        Step node (.post call outcome (readBlock node.mem call.range.1 call.range.2))
          { node with ctx := ctx, pc := pc }
  | zflush {node : Node nprocs} {ret : Int} :
      node.pc = .idle ret → Step node .zflush { node with pc := .head .flush }
  | zrecv {node : Node nprocs} {ret : Int} (source : Fin nprocs) :
      node.pc = .idle ret → Step node (.zrecv source) { node with pc := .head (.recv source) }
  | giveBack {node : Node nprocs} {ret : Int} :
      node.pc = .idle ret → Step node .giveBack { node with pc := .returning }
  | throttleTest {node : Node nprocs} {dest : Fin nprocs} :
      node.pc = .head (.throttle dest) →
        Step node (.test (.throttle dest)) { node with pc := .polling (.throttle dest) }
  | flushTest {node : Node nprocs} :
      node.pc = .head .flush → 0 < node.ctx.pendingSendWr →
        Step node (.test .flush) { node with pc := .polling .flush }
  | flushEnd {node : Node nprocs} :
      node.pc = .head .flush → ¬ 0 < node.ctx.pendingSendWr →
        Step node (.test .flush) { node with pc := .idle 0 }
  | recvTest {node : Node nprocs} {source : Fin nprocs} {ctx : Context nprocs} :
      node.pc = .head (.recv source) → node.ctx.recvHead source = .ok (ctx, none) →
        Step node (.test (.recv source)) { node with ctx := ctx, pc := .polling (.recv source) }
  | received {node : Node nprocs} {source : Fin nprocs} {ctx : Context nprocs}
      {result : Received} :
      node.pc = .head (.recv source) → node.ctx.recvHead source = .ok (ctx, some result) →
        Step node (.received source result (readBlock ctx.rxWin.buf result.ptr result.len))
          { node with ctx := ctx, pc := .idle 0 }
  | poll {node : Node nprocs} {loop : Loop nprocs} {batch rest : List Wc} :
      node.pc = .polling loop → node.cq = batch ++ rest → batch.length ≤ pollBatch →
        Step node (.poll batch.length) { node with pc := .afterPoll loop batch, cq := rest }
  | pollError {node : Node nprocs} {loop : Loop nprocs} :
      node.pc = .polling loop → Step node .pollError { node with pc := .afterPollError loop }
  | handle {node : Node nprocs} {loop : Loop nprocs} {wc : Wc} {rest : List Wc}
      {ctx : Context nprocs} :
      node.pc = .handling loop (wc :: rest) → node.ctx.processWc wc = .ok ctx →
        Step node (.handle wc) { node with ctx := ctx, pc := .afterHandled loop rest }
  | repost {node : Node nprocs} {ctx : Context nprocs} {wr : RecvWr} :
      node.pc = .returning → node.ctx.returnHead = .ok (ctx, some wr) →
        Step node (.repost wr true) { node with ctx := ctx, srq := node.srq ++ [wr] }
  /-- `ibv_post_srq_recv` fails: `YMPID_Return` returns at once, and `YMPI_Return`
  returns 0 regardless. -/
  | repostFailed {node : Node nprocs} {ctx : Context nprocs} {wr : RecvWr} :
      node.pc = .returning → node.ctx.returnHead = .ok (ctx, some wr) →
        Step node (.repost wr false) { node with ctx := ctx, pc := .idle 0 }
  | returned {node : Node nprocs} {ctx : Context nprocs} :
      node.pc = .returning → node.ctx.returnHead = .ok (ctx, none) →
        Step node .returned { node with ctx := ctx, pc := .idle 0 }
  | halt {node : Node nprocs} {halt : Halt} :
      node.Fails halt → Step node (.halt halt) { node with pc := .halted halt node.pc.batch }
  | store {node : Node nprocs} {ret : Int} (mem : ℕ → UInt8) :
      node.pc = .idle ret → Step node (.store mem) { node with mem := mem }
  | register {node : Node nprocs} {ret : Int} (mr : Mr) :
      node.pc = .idle ret → Step node (.register mr) { node with mrs := mr :: node.mrs }
  | execute {node : Node nprocs} {peer : Fin nprocs} {posted : Posted} {rest : List Posted}
      (done : Bool) (fetched : List UInt8) :
      node.sendQueue peer = posted :: rest →
        Step node (.execute peer posted done fetched)
          { node with
            sendQueue := Function.update node.sendQueue peer rest
            executed := Function.update node.executed peer
              (node.executed peer ++ [⟨posted, done⟩])
            mem := posted.wr.scatter node.mem fetched }
  /-- An executed request completes, in any order; only one that had its effect may
  complete successfully. -/
  | complete {node : Node nprocs} {peer : Fin nprocs} {front back : List Executed}
      {executed : Executed} {qpNum : ℕ} (status : WcStatus) :
      node.executed peer = front ++ executed :: back → node.ctx.qps.qpList peer = some qpNum →
      executed.posted.wr.sendFlags.signaled = true → (status = .success → executed.done = true) →
        Step node (.complete peer executed status)
          { node with
            executed := Function.update node.executed peer (front ++ back)
            cq := node.cq ++ [{
              wrId := executed.posted.wr.wrId
              status := status
              byteLen := executed.posted.data.length
              qpNum := qpNum }] }
  /-- A message consumes any one posted buffer and writes only that buffer. -/
  | arrive {node : Node nprocs} {peer : Fin nprocs} {front back : List RecvWr} {wr : RecvWr}
      {qpNum : ℕ} (payload : List UInt8) :
      node.srq = front ++ wr :: back → node.ctx.qps.qpList peer = some qpNum →
        Step node (.arrive peer wr payload)
          { node with
            ctx := { node.ctx with rxWin := { node.ctx.rxWin with
              buf := writeBlock node.ctx.rxWin.buf wr.sge.addr (payload.take wr.sge.length) } }
            srq := front ++ back
            cq := node.cq ++ [recvWc wr qpNum payload] }
  | land {node : Node nprocs} (address : ℕ) (data : List UInt8) :
      Step node (.land address data) { node with mem := writeBlock node.mem address data }

/-- A node whose context has been created and whose `YMPID_Init` is about to post
the receive buffers for the first time. -/
structure Initial (node : Node nprocs) : Prop where
  created : ∃ maxInlineData lkey garbage garbageFetched,
    Context.create node.ctx.qps maxInlineData lkey garbage garbageFetched = .ok node.ctx
  pc_eq : node.pc = .returning
  srq_eq : node.srq = []
  cq_eq : node.cq = []
  sendQueue_eq : ∀ peer, node.sendQueue peer = []
  executed_eq : ∀ peer, node.executed peer = []

/-- The transition system of a single node in an arbitrary environment. -/
def system (nprocs : ℕ) : LabelledSystem (Node nprocs) (Action nprocs) where
  Initial := Initial
  Step := Step

end Node

end Ympi.Messaging
