import Ympi.Messaging.Runs

/-! # The descriptors of posted requests

The bounds assertion of the posting calls adds two `size_t` values, and the length of a
scatter/gather entry has 32 bits. A descriptor is right exactly when the addition does
not wrap and the number of bytes fits the length.
-/

namespace Ympi.Messaging

variable {nprocs : ℕ}

/-- The memory of the buffer is registered and lies in the address space. -/
structure RdmaBuffer.Registered (buffer : RdmaBuffer) : Prop where
  covered : buffer.mr.covers buffer.buf buffer.bytes
  inSpace : buffer.buf + buffer.bytes ≤ 2 ^ 64
  bytes_lt : buffer.bytes < 2 ^ 64

/-- The request names exactly the bytes from `offset` up to `offset + bytes` of the
buffer: by its entry, or by having none when there are none. -/
def SendWr.Describes (wr : SendWr) (buffer : RdmaBuffer) (offset bytes : ℕ) : Prop :=
  match wr.sgList with
  | none => bytes = 0
  | some sge => bytes ≠ 0 ∧ sge.addr = buffer.buf + offset ∧ sge.length = bytes ∧
      sge.lkey = buffer.mr.lkey

namespace PostCall

def buffer : PostCall nprocs → RdmaBuffer
  | .zsend buffer _ _ _ => buffer
  | .write localSrc _ _ _ _ _ => localSrc
  | .read localDst _ _ _ _ _ => localDst

def offset : PostCall nprocs → ℕ
  | .zsend _ offset _ _ => offset
  | .write _ offset _ _ _ _ => offset
  | .read _ offset _ _ _ _ => offset

def bytes : PostCall nprocs → ℕ
  | .zsend _ _ bytes _ => bytes
  | .write _ _ bytes _ _ _ => bytes
  | .read _ _ bytes _ _ _ => bytes

/-- The descriptor names exactly the requested range, which lies inside the buffer. -/
def Exact (ctx : Context nprocs) (call : PostCall nprocs) : Prop :=
  (call.wr ctx).Describes call.buffer call.offset call.bytes ∧
    call.offset + call.bytes ≤ call.buffer.bytes

theorem wr_sgList (ctx : Context nprocs) (call : PostCall nprocs) :
    (call.wr ctx).sgList = Context.sgList call.buffer call.offset call.bytes := by
  cases call <;> rfl

theorem inBounds_iff (call : PostCall nprocs) :
    call.InBounds ↔ sizeT (call.offset + call.bytes) ≤ call.buffer.bytes := by
  cases call <;> exact Iff.rfl

/-- The entry of a request that is not empty. -/
theorem describes_iff (ctx : Context nprocs) {call : PostCall nprocs} (nonempty : call.bytes ≠ 0) :
    (call.wr ctx).Describes call.buffer call.offset call.bytes ↔
      sizeT (call.buffer.buf + call.offset) = call.buffer.buf + call.offset ∧
        uint32T call.bytes = call.bytes := by
  unfold SendWr.Describes
  rw [wr_sgList, Context.sgList, if_neg nonempty]
  refine ⟨?_, ?_⟩
  · rintro ⟨-, address, length, -⟩
    exact ⟨address, length⟩
  · rintro ⟨address, length⟩
    exact ⟨nonempty, address, length, rfl⟩

theorem describes_empty (ctx : Context nprocs) {call : PostCall nprocs} (empty : call.bytes = 0) :
    (call.wr ctx).Describes call.buffer call.offset call.bytes := by
  unfold SendWr.Describes
  rw [wr_sgList, Context.sgList, if_pos empty]
  exact empty

/-- **Descriptors.** When the bounds assertion of a posting call passes, its descriptor
names exactly the requested range, inside the buffer, if and only if the sum of `offset`
and `bytes` does not wrap and `bytes` fits 32 bits. -/
theorem exact_iff (ctx : Context nprocs) (call : PostCall nprocs)
    (registered : call.buffer.Registered) (asserted : call.InBounds) :
    call.Exact ctx ↔ call.offset + call.bytes < 2 ^ 64 ∧ call.bytes < 2 ^ 32 := by
  rw [inBounds_iff] at asserted
  have space := registered.inSpace
  have size := registered.bytes_lt
  refine ⟨?_, ?_⟩
  · rintro ⟨described, inside⟩
    refine ⟨lt_of_le_of_lt inside size, ?_⟩
    by_cases empty : call.bytes = 0
    · rw [empty]
      exact Nat.two_pow_pos 32
    · have length := ((describes_iff ctx empty).mp described).2
      rw [← length]
      exact Nat.mod_lt _ (Nat.two_pow_pos 32)
  · rintro ⟨unwrapped, short⟩
    have inside : call.offset + call.bytes ≤ call.buffer.bytes := by
      rwa [sizeT, Nat.mod_eq_of_lt unwrapped] at asserted
    refine ⟨?_, inside⟩
    by_cases empty : call.bytes = 0
    · exact describes_empty ctx empty
    · apply (describes_iff ctx empty).mpr
      have within : call.buffer.buf + call.offset < 2 ^ 64 := by omega
      exact ⟨Nat.mod_eq_of_lt within, Nat.mod_eq_of_lt short⟩

/-- A buffer of `bytes` bytes that starts at the first megabyte. -/
def heap (bytes : ℕ) : RdmaBuffer where
  buf := 1048576
  bytes := bytes
  mr := {
    addr := 1048576
    length := bytes
    lkey := 7
    rkey := 7
    remoteWrite := false
    remoteRead := false }

theorem heap_registered {bytes : ℕ} (small : 1048576 + bytes < 2 ^ 64) :
    (heap bytes).Registered := by
  refine ⟨⟨le_rfl, le_rfl⟩, small.le, ?_⟩
  change bytes < 2 ^ 64
  omega

/-- Write 2³² of the 2³³ bytes of a buffer. -/
def longWrite : PostCall 2 :=
  .write (heap (2 ^ 33)) 0 (2 ^ 32) 1 0 0

/-- Write 16 bytes at the offset 2⁶⁴ - 8 of a page. -/
def wrappedWrite : PostCall 2 :=
  .write (heap 4096) (2 ^ 64 - 8) 16 1 0 0

theorem longWrite_inBounds : longWrite.InBounds := by
  rw [inBounds_iff]
  decide

theorem wrappedWrite_inBounds : wrappedWrite.InBounds := by
  rw [inBounds_iff]
  decide

theorem longWrite_inexact (ctx : Context 2) : ¬ longWrite.Exact ctx := by
  rintro ⟨described, -⟩
  have length := ((describes_iff ctx (by decide)).mp described).2
  exact absurd length (by decide)

theorem wrappedWrite_inexact (ctx : Context 2) : ¬ wrappedWrite.Exact ctx := by
  rintro ⟨-, inside⟩
  exact absurd inside (by decide)

/-- A started process of two has both writes accepted. The entry of the first has length
zero, that of the second starts before the buffer. -/
theorem descriptor_inexact : ∃ (history : List (Action 2)) (node : Node 2),
    (Node.system 2).Reaches history node ∧
      (∃ data later, Node.Step node (.post longWrite .accepted data) later) ∧
      longWrite.buffer.Registered ∧ (longWrite.wr node.ctx).sgList = some ⟨1048576, 0, 7⟩ ∧
      ¬ longWrite.Exact node.ctx ∧
      (∃ data later, Node.Step node (.post wrappedWrite .accepted data) later) ∧
      wrappedWrite.buffer.Registered ∧
      (wrappedWrite.wr node.ctx).sgList = some ⟨1048568, 16, 7⟩ ∧
      ¬ wrappedWrite.Exact node.ctx := by
  obtain ⟨start, initial, listed, -⟩ :=
    Node.exists_initial (QpTable.direct 2 (by decide)) (fun _ => 0) []
  obtain ⟨node, run, started, qps, -⟩ := Node.startup initial
  have present : ∀ peer, node.ctx.qps.qpList peer ≠ none := by
    intro peer
    rw [qps, listed]
    exact Option.some_ne_none _
  refine ⟨_, node, ⟨start, initial, run⟩, ?_, heap_registered (by decide), rfl,
    longWrite_inexact node.ctx, ?_, heap_registered (by decide), rfl,
    wrappedWrite_inexact node.ctx⟩
  · exact ⟨_, _, Node.Step.postAccepted started.pc_eq
      (perform_ok longWrite_inBounds (present _))⟩
  · exact ⟨_, _, Node.Step.postAccepted started.pc_eq
      (perform_ok wrappedWrite_inBounds (present _))⟩

/-- A send of a page from the start of its buffer. -/
theorem exact_iff_page : ∃ ctx : Context 2,
    (zsend (heap 4096) 0 4096 1 : PostCall 2).Exact ctx := by
  obtain ⟨node, -⟩ := Node.exists_initial (QpTable.direct 2 (by decide)) (fun _ => 0) []
  have asserted : (zsend (heap 4096) 0 4096 1 : PostCall 2).InBounds := by
    rw [inBounds_iff]
    decide
  have registered : (heap 4096).Registered := heap_registered (by decide)
  exact ⟨node.ctx, (exact_iff node.ctx (zsend (heap 4096) 0 4096 1) registered asserted).mpr
    ⟨by decide, by decide⟩⟩

end PostCall

end Ympi.Messaging
