import Ympi.Messaging.Context

/-! # The public calls, cut at their interactions with the HCA

A process runs one call at a time. Between two interactions with the verbs layer
(a post, a poll) a call computes on the context alone; these computations are the
functions below, and `Pc` says at which of them a process is. The same polling loop
body is compiled into three places, which differ in when the loop ends.
-/

namespace Ympi.Messaging

open LinkedList

variable {nprocs : ℕ}

/-- The polling loops: `while(ne == 0)` after a post to `dest`, the loop of
`YMPI_Zflush`, and that of `YMPI_Zrecv` for `source`. -/
inductive Loop (nprocs : ℕ) where
  | throttle (dest : Fin nprocs)
  | flush
  | recv (source : Fin nprocs)

/-- Where a process is. -/
inductive Pc (nprocs : ℕ) where
  /-- Between calls; the last call returned `ret`. -/
  | idle (ret : Int)
  /-- At the test of a polling loop. -/
  | head (loop : Loop nprocs)
  /-- About to call `ibv_poll_cq` in a polling loop. -/
  | polling (loop : Loop nprocs)
  /-- In the `for` loop over polled completions, `batch` being still unhandled. -/
  | handling (loop : Loop nprocs) (batch : List Wc)
  /-- In the loop of `YMPID_Return`. -/
  | returning
  /-- The process has ended, leaving `batch` unhandled. -/
  | halted (halt : Halt) (batch : List Wc)

namespace Pc

/-- The polled completions that are still unhandled. -/
def batch : Pc nprocs → List Wc
  | .handling _ batch => batch
  | .halted _ batch => batch
  | _ => []

/-- After a poll: an empty one goes back to the loop test. -/
def afterPoll (loop : Loop nprocs) : List Wc → Pc nprocs
  | [] => .head loop
  | wc :: rest => .handling loop (wc :: rest)

/-- After a handled completion: the `for` loop goes on, or it ends. With it the
throttle loop ends too, since `ne` is not zero, and the call returns 0. -/
def afterHandled (loop : Loop nprocs) : List Wc → Pc nprocs
  | [] =>
      match loop with
      | .throttle _ => .idle 0
      | .flush => .head .flush
      | .recv source => .head (.recv source)
  | wc :: rest => .handling loop (wc :: rest)

/-- After a failed poll: the throttle loop ends since `ne` is not zero, the other
loops end the process. -/
def afterPollError : Loop nprocs → Pc nprocs
  | .throttle _ => .idle 0
  | .flush => .halted (.exit (-1)) []
  | .recv _ => .halted (.exit (-1)) []

end Pc

/-- A posting call with its arguments. -/
inductive PostCall (nprocs : ℕ) where
  | zsend (buffer : RdmaBuffer) (offset bytes : ℕ) (dest : Fin nprocs)
  | write (localSrc : RdmaBuffer) (offset bytes : ℕ) (dest : Fin nprocs) (rkey destPtr : ℕ)
  | read (localDst : RdmaBuffer) (offset bytes : ℕ) (src : Fin nprocs) (rkey srcPtr : ℕ)

namespace Context

/-- The entry for `bytes` bytes at `offset`, left out for an empty request. -/
def sgList (buffer : RdmaBuffer) (offset bytes : ℕ) : Option Sge :=
  if bytes = 0 then none
  else some { addr := sizeT (buffer.buf + offset), length := uint32T bytes, lkey := buffer.mr.lkey }

/-- The request of `YMPI_Zsend`. -/
def zsendWr (ctx : Context nprocs) (buffer : RdmaBuffer) (offset bytes : ℕ)
    (dest : Fin nprocs) : SendWr where
  wrId := { tag := .send, id := dest }
  sgList := sgList buffer offset bytes
  opcode := .send
  sendFlags := { signaled := true, inlined := bytes < ctx.maxInlineData }
  remoteAddr := 0
  rkey := 0

/-- The request of `YMPI_Write`. -/
def writeWr (ctx : Context nprocs) (localSrc : RdmaBuffer) (offset bytes : ℕ)
    (dest : Fin nprocs) (rkey destPtr : ℕ) : SendWr where
  wrId := { tag := .write, id := dest }
  sgList := sgList localSrc offset bytes
  opcode := .rdmaWrite
  sendFlags := { signaled := true, inlined := bytes < ctx.maxInlineData }
  remoteAddr := destPtr
  rkey := rkey

/-- The request of `YMPI_Read`, which is never inlined. -/
def readWr (localDst : RdmaBuffer) (offset bytes : ℕ) (src : Fin nprocs)
    (rkey srcPtr : ℕ) : SendWr where
  wrId := { tag := .read, id := src }
  sgList := sgList localDst offset bytes
  opcode := .rdmaRead
  sendFlags := { signaled := true, inlined := false }
  remoteAddr := srcPtr
  rkey := rkey

/-- The common end of the posting calls, from the check of the queue pair on: a
refused post returns -1, an accepted one is counted, and reaching the limit of the
queue pair enters the throttle loop. -/
def postSend (ctx : Context nprocs) (dest : Fin nprocs) (outcome : PostOutcome) :
    Except Halt (Context nprocs × Pc nprocs) :=
  if ctx.qps.qpList dest = none then .error .assertion
  else match outcome with
    | .failed _ => .ok (ctx, .idle (-1))
    | .badWr => .ok (ctx, .idle (-1))
    | .accepted =>
        let counted := ctx.incPending dest
        if counted.qpPendingSendWr dest = maxSendWrPerQp then
          .ok (counted, .head (.throttle dest))
        else .ok (counted, .idle 0)

/-- The bounds assertion of the posting calls, in `size_t` arithmetic. -/
def inBounds (buffer : RdmaBuffer) (offset bytes : ℕ) : Prop :=
  sizeT (offset + bytes) ≤ buffer.bytes

instance (buffer : RdmaBuffer) (offset bytes : ℕ) : Decidable (inBounds buffer offset bytes) :=
  inferInstanceAs (Decidable (_ ≤ _))

/-- `YMPI_Zsend` up to its throttle loop. -/
def zsend (ctx : Context nprocs) (buffer : RdmaBuffer) (offset bytes : ℕ) (dest : Fin nprocs)
    (outcome : PostOutcome) : Except Halt (Context nprocs × Pc nprocs) :=
  if inBounds buffer offset bytes then ctx.postSend dest outcome else .error .assertion

/-- `YMPI_Write` up to its throttle loop. -/
def write (ctx : Context nprocs) (localSrc : RdmaBuffer) (offset bytes : ℕ) (dest : Fin nprocs)
    (outcome : PostOutcome) : Except Halt (Context nprocs × Pc nprocs) :=
  if inBounds localSrc offset bytes then ctx.postSend dest outcome else .error .assertion

/-- `YMPI_Read` up to its throttle loop. -/
def read (ctx : Context nprocs) (localDst : RdmaBuffer) (offset bytes : ℕ) (src : Fin nprocs)
    (outcome : PostOutcome) : Except Halt (Context nprocs × Pc nprocs) :=
  if inBounds localDst offset bytes then ctx.postSend src outcome else .error .assertion

end Context

namespace PostCall

/-- The peer whose queue pair the call posts to. -/
def dest : PostCall nprocs → Fin nprocs
  | .zsend _ _ _ dest => dest
  | .write _ _ _ dest _ _ => dest
  | .read _ _ _ src _ _ => src

/-- The work request that the call hands to `ibv_post_send`. -/
def wr (ctx : Context nprocs) : PostCall nprocs → SendWr
  | .zsend buffer offset bytes dest => ctx.zsendWr buffer offset bytes dest
  | .write localSrc offset bytes dest rkey destPtr =>
      ctx.writeWr localSrc offset bytes dest rkey destPtr
  | .read localDst offset bytes src rkey srcPtr =>
      Context.readWr localDst offset bytes src rkey srcPtr

/-- The call up to its throttle loop. -/
def perform (ctx : Context nprocs) (outcome : PostOutcome) :
    PostCall nprocs → Except Halt (Context nprocs × Pc nprocs)
  | .zsend buffer offset bytes dest => ctx.zsend buffer offset bytes dest outcome
  | .write localSrc offset bytes dest _ _ => ctx.write localSrc offset bytes dest outcome
  | .read localDst offset bytes src _ _ => ctx.read localDst offset bytes src outcome

end PostCall

/-- What `YMPI_Zrecv` hands out: the buffer, its address and its length. -/
structure Received where
  bufId : Int
  ptr : ℕ
  len : ℕ

namespace Context

/-- The head of `YMPI_Zrecv`'s loop: hand out the oldest pending buffer of the
source, if there is one. -/
def recvHead (ctx : Context nprocs) (source : Fin nprocs) :
    Except Halt (Context nprocs × Option Received) := do
  let (queue, bufId) ← (ctx.rxWin.pendingRecvQueue source).dequeue (-1)
  let dequeued := { ctx with rxWin := { ctx.rxWin with
    pendingRecvQueue := Function.update ctx.rxWin.pendingRecvQueue source queue } }
  if bufId ≠ -1 then
    let fetched ← dequeued.rxWin.vbufFetched.enqueue bufId
    return ({ dequeued with rxWin := { dequeued.rxWin with vbufFetched := fetched } },
      some {
        bufId := bufId
        ptr := bufId.toNat * vbufBytes
        len := dequeued.rxWin.bufBytes bufId.toNat })
  else return (dequeued, none)

/-- One turn of `YMPID_Return`'s loop up to `ibv_post_srq_recv`: the receive request
for the next buffer in `vbuf_fetched`, if there is one. -/
def returnHead (ctx : Context nprocs) : Except Halt (Context nprocs × Option RecvWr) := do
  let (queue, bufId) ← ctx.rxWin.vbufFetched.dequeue (-1)
  let dequeued := { ctx with rxWin := { ctx.rxWin with vbufFetched := queue } }
  if bufId ≠ -1 then
    return (dequeued, some {
      wrId := { tag := .recv, id := bufId.toNat }
      sge := { addr := bufId.toNat * vbufBytes, length := vbufBytes, lkey := ctx.rxWin.lkey } })
  else return (dequeued, none)

end Context

end Ympi.Messaging
