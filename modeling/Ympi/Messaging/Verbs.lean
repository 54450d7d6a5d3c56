import Mathlib.Algebra.Group.Nat.Defs
import Ympi.LinkedList.Basic

/-! # Work requests, completions and limits

The records that the library exchanges with the verbs layer, with the fields that
it sets or reads, and the limits it is compiled with.
-/

namespace Ympi.Messaging

/-- The transmission bytes must not exceed `YMPI_VBUF_BYTES`. -/
def vbufBytes : ℕ := 2 * 1024 * 1024

/-- `YMPI_PREPOST_DEPTH`: the number of receive buffers. -/
def prepostDepth : ℕ := 256

/-- `YMPI_MAX_SEND_WR_PER_QP`: the `max_send_wr` of every queue pair. -/
def maxSendWrPerQp : ℕ := 256

/-- `YMPI_QPN_HASH_SIZE` -/
def qpnHashSize : ℕ := 1024 * 1024

/-- `YMPI_RECV_PER_PROCESS`: the pool size of a pending receive queue. -/
def recvPerProcess : ℕ := 1024

/-- The `cqe` argument of `ibv_create_cq`. -/
def cqEntries : ℕ := 4 * prepostDepth

/-- The `max_wr` attribute of `ibv_create_srq`. -/
def maxSrqWr : ℕ := 2 * prepostDepth

/-- The number of completions that one `ibv_poll_cq` may return. -/
def pollBatch : ℕ := 64

/-- A value converted to `size_t`. -/
def sizeT (value : ℕ) : ℕ := value % 2 ^ 64

/-- A value converted to `uint32_t`. -/
def uint32T (value : ℕ) : ℕ := value % 2 ^ 32

/-- The request kinds `RECV_WRID`, `SEND_WRID`, `READ_WRID`, `WRITE_WRID`. -/
inductive WridTag where
  | recv
  | send
  | read
  | write
  deriving DecidableEq, Repr

/-- `YMPID_Wrid`: a receive buffer for the tag `recv`, the peer otherwise. -/
structure Wrid where
  tag : WridTag
  id : ℕ
  deriving DecidableEq, Repr

/-- `ibv_sge`: a range of registered memory. -/
structure Sge where
  addr : ℕ
  length : ℕ
  lkey : ℕ
  deriving DecidableEq, Repr

inductive WrOpcode where
  | send
  | rdmaWrite
  | rdmaRead
  deriving DecidableEq, Repr

/-- `send_flags`: `IBV_SEND_SIGNALED` and `IBV_SEND_INLINE`. -/
structure SendFlags where
  signaled : Bool
  inlined : Bool
  deriving DecidableEq, Repr

/-- `ibv_send_wr` with at most one scatter/gather entry. -/
structure SendWr where
  wrId : Wrid
  sgList : Option Sge
  opcode : WrOpcode
  sendFlags : SendFlags
  remoteAddr : ℕ
  rkey : ℕ
  deriving DecidableEq, Repr

/-- `ibv_recv_wr` with its one scatter/gather entry. -/
structure RecvWr where
  wrId : Wrid
  sge : Sge
  deriving DecidableEq, Repr

/-- `IBV_WC_SUCCESS` or one of the error codes. -/
inductive WcStatus where
  | success
  | failure (code : ℕ)
  deriving DecidableEq, Repr

/-- `IBV_WC_LOC_LEN_ERR`: the message did not fit the receive buffer. -/
def wcLocLenErr : WcStatus := .failure 1

/-- `ibv_wc` -/
structure Wc where
  wrId : Wrid
  status : WcStatus
  byteLen : ℕ
  qpNum : ℕ
  deriving DecidableEq, Repr

namespace Wc

/-- The completion of a posted receive buffer. -/
def isRecv (wc : Wc) : Bool :=
  wc.wrId.tag = .recv

/-- The completion of a send, write or read request posted to `peer`. -/
def isSendTo (peer : ℕ) (wc : Wc) : Bool :=
  wc.wrId.tag ≠ .recv ∧ wc.wrId.id = peer

end Wc

/-- `ibv_mr`: a registered range with its keys and remote access rights. -/
structure Mr where
  addr : ℕ
  length : ℕ
  lkey : ℕ
  rkey : ℕ
  remoteWrite : Bool
  remoteRead : Bool
  deriving DecidableEq, Repr

namespace Mr

/-- The range from `start` on lies inside the registered one. -/
def covers (mr : Mr) (start length : ℕ) : Prop :=
  mr.addr ≤ start ∧ start + length ≤ mr.addr + mr.length

instance (mr : Mr) (start length : ℕ) : Decidable (mr.covers start length) :=
  inferInstanceAs (Decidable (_ ∧ _))

end Mr

/-- `YMPID_Rdma_buffer`: the registered buffer behind a `YMPI_Rdma_buffer` handle. -/
structure RdmaBuffer where
  buf : ℕ
  bytes : ℕ
  mr : Mr
  deriving DecidableEq, Repr

/-- What `ibv_post_send` did: it took the request, returned an error number, or
returned zero with `bad_wr` set. -/
inductive PostOutcome where
  | accepted
  | failed (err : Int)
  | badWr
  deriving DecidableEq, Repr

end Ympi.Messaging
