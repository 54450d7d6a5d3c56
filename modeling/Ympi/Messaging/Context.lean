import Ympi.LinkedList.PooledQueue
import Ympi.Messaging.Verbs

/-! # The context of a process and the handling of completions

`YMPID_Context` with the state that the messaging functions read and write, its
creation, and `process_wc`. The lookup table from queue pair numbers to peers is
static; a table carries the proof that it finds the peer of each of its pairs.
-/

namespace Ympi.Messaging

open LinkedList

/-- The two builds of the library, which number queue pairs differently. -/
inductive Arch where
  | x86_64
  | sw (cgid : Int)

/-- `offset_to_qpn`; the number of processes is not used. -/
def offsetToQpn (cgid offset : Int) : Int :=
  let qpnBlockSize := ((8 * 1024 * 1024) - 1024) / 4
  let halfQpnBlockSize := ((8 * 1024 * 1024) - 1024) / 8
  1024 + cgid * qpnBlockSize + halfQpnBlockSize + offset

/-- `qpn_to_offset` -/
def qpnToOffset (cgid qpn : Int) : Int :=
  let qpnBlockSize := ((8 * 1024 * 1024) - 1024) / 4
  let halfQpnBlockSize := ((8 * 1024 * 1024) - 1024) / 8
  qpn - 1024 - cgid * qpnBlockSize - halfQpnBlockSize

/-- `YMPID_Qpn_rank` over the table `qp_rank`. -/
def qpnRank (arch : Arch) (qpRank : ℕ → Int) (qpn : ℕ) : Except Halt Int :=
  match arch with
  | .x86_64 =>
      let rank := qpRank (qpn % qpnHashSize)
      if 0 ≤ rank then .ok rank else .error .assertion
  | .sw cgid => .ok (qpnToOffset cgid qpn)

variable {nprocs : ℕ}

/-- The queue pairs of a process, by the peer each is for; `NULL` is `none`. A
queue pair is its number, and the lookup returns the peer of every pair held. -/
structure QpTable (nprocs : ℕ) where
  arch : Arch
  qpList : Fin nprocs → Option ℕ
  qpRank : ℕ → Int
  rank_eq : ∀ peer qpNum, qpList peer = some qpNum →
    qpnRank arch qpRank qpNum = .ok (peer.val : Int)

/-- `YMPID_Recv_win`. The bytes of the receive buffers are addressed from the start
of the region. -/
structure RecvWin (nprocs : ℕ) where
  buf : ℕ → UInt8
  bufBytes : ℕ → ℕ
  lkey : ℕ
  pendingRecvQueue : Fin nprocs → PooledQueue Int recvPerProcess
  vbufFetched : PooledQueue Int prepostDepth

/-- `YMPID_Context` -/
structure Context (nprocs : ℕ) where
  rxWin : RecvWin nprocs
  qps : QpTable nprocs
  qpPendingSendWr : Fin nprocs → Int
  pendingSendWr : Int
  maxInlineData : ℕ

namespace Context

/-- Use an `int` as an index of an array with one entry for each process. -/
def index (nprocs : ℕ) (rank : Int) : Except Halt (Fin nprocs) :=
  if inside : 0 ≤ rank ∧ rank < nprocs then .ok ⟨rank.toNat, by omega⟩ else .error .fault

/-- `ATOMIC_DEC` of both counters, for the queue pair `qpId`. -/
def decPending (ctx : Context nprocs) (qpId : ℕ) : Except Halt (Context nprocs) := do
  let peer ← index nprocs qpId
  return { ctx with
    qpPendingSendWr := Function.update ctx.qpPendingSendWr peer (ctx.qpPendingSendWr peer - 1)
    pendingSendWr := ctx.pendingSendWr - 1 }

/-- `ATOMIC_INC` of both counters, for the queue pair to `dest`. -/
def incPending (ctx : Context nprocs) (dest : Fin nprocs) : Context nprocs :=
  { ctx with
    qpPendingSendWr := Function.update ctx.qpPendingSendWr dest (ctx.qpPendingSendWr dest + 1)
    pendingSendWr := ctx.pendingSendWr + 1 }

/-- `process_wc` -/
def processWc (ctx : Context nprocs) (wc : Wc) : Except Halt (Context nprocs) :=
  if wc.status ≠ .success then .error (.exit (-1))
  else match wc.wrId.tag with
    | .send => ctx.decPending wc.wrId.id
    | .write => ctx.decPending wc.wrId.id
    | .read => ctx.decPending wc.wrId.id
    | .recv => do
        let msgSrc ← qpnRank ctx.qps.arch ctx.qps.qpRank wc.qpNum
        let source ← index nprocs msgSrc
        let queue ← (ctx.rxWin.pendingRecvQueue source).enqueue wc.wrId.id
        return { ctx with rxWin := { ctx.rxWin with
          bufBytes := Function.update ctx.rxWin.bufBytes wc.wrId.id wc.byteLen
          pendingRecvQueue := Function.update ctx.rxWin.pendingRecvQueue source queue } }

/-- The `for` loop of the creation that enqueues the buffer ids from `first` on. -/
def fillFetched (queue : PooledQueue Int prepostDepth) : ℕ → ℕ →
    Except Halt (PooledQueue Int prepostDepth)
  | _, 0 => .ok queue
  | first, count + 1 => do
      let filled ← queue.enqueue first
      fillFetched filled (first + 1) count

/-- What `YMPID_Context_create` sets up for messaging once the verbs objects exist.
The cells that `malloc` returns hold anything. -/
def create (qps : QpTable nprocs) (maxInlineData lkey : ℕ)
    (garbage : Fin nprocs → Cell recvPerProcess → Element Int recvPerProcess)
    (garbageFetched : Cell prepostDepth → Element Int prepostDepth) :
    Except Halt (Context nprocs) := do
  let vbufFetched ← fillFetched (PooledQueue.init (-1) garbageFetched (by decide)) 0 prepostDepth
  return {
    rxWin := {
      buf := fun _ => 0x7b
      bufBytes := fun _ => 0
      lkey := lkey
      pendingRecvQueue := fun i => PooledQueue.init (-1) (garbage i) (by decide)
      vbufFetched := vbufFetched }
    qps := qps
    qpPendingSendWr := fun _ => 0
    pendingSendWr := 0
    maxInlineData := maxInlineData }

end Context

end Ympi.Messaging
