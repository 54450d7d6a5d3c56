import Ympi.Clients.Plays
import Ympi.Foundation.Doubling
import Ympi.Foundation.RoundTable

/-! # The all-to-all benchmark

`osu_ympi_zalltoall` measures an exchange of messages of growing sizes. In each iteration a rank
sends to all others, receives from all others, flushes, and gives its buffers back; the
iterations are set apart by barriers.
-/

namespace Ympi.Clients.Zalltoall

open LinkedList Foundation Messaging

/-- `LARGE_MESSAGE_SIZE` -/
def largeMessageSize : ℕ := 8192

/-- The options that `process_options` leaves: the least size is rounded up to a power of two, and
there is an iteration to measure. -/
structure Options where
  minMessageSize : ℕ
  maxMessageSize : ℕ
  maxMemLimit : ℕ
  iterations : ℕ
  iterationsLarge : ℕ
  skip : ℕ
  skipLarge : ℕ
  minMessageSize_pow : ∃ exponent, minMessageSize = 2 ^ exponent
  maxMemLimit_int : maxMemLimit < 2 ^ 31
  iterations_pos : 0 < iterations
  iterationsLarge_pos : 0 < iterationsLarge

namespace Options

/-- "SET DEFAULT OPTIONS" -/
def default : Options where
  minMessageSize := 1
  maxMessageSize := 2 ^ 20
  maxMemLimit := 512 * 1024 * 1024
  iterations := 1000
  iterationsLarge := 100
  skip := 200
  skipLarge := 10
  minMessageSize_pow := Power.one_eq_pow
  maxMemLimit_int := by decide
  iterations_pos := by decide
  iterationsLarge_pos := by decide

/-- Large messages are sent less often. -/
def forSize (options : Options) (size : ℕ) : Options :=
  if size > largeMessageSize then
    { options with
      skip := options.skipLarge
      iterations := options.iterationsLarge
      iterations_pos := options.iterationsLarge_pos }
  else options

/-- The largest message of `numprocs` processes, whose messages lie in one buffer. -/
def maxSize (options : Options) (numprocs : ℕ) : ℕ :=
  if options.maxMessageSize * numprocs > options.maxMemLimit then options.maxMemLimit / numprocs
  else options.maxMessageSize

theorem maxSize_mul_le (options : Options) (numprocs : ℕ) :
    options.maxSize numprocs * numprocs ≤ options.maxMemLimit := by
  unfold maxSize
  split
  · exact Nat.div_mul_le_self _ _
  · omega

end Options

/-- The options, and the send buffer that each of two or more processes allocates. Its messages
fit into the receive buffers. -/
structure Setting (numprocs : ℕ) where
  options : Options
  sendBuffer : Fin numprocs → RdmaBuffer
  sendBuffer_bytes : ∀ rank, (sendBuffer rank).bytes = options.maxSize numprocs * numprocs
  small : options.maxSize numprocs ≤ vbufBytes
  two_le : 2 ≤ numprocs

variable {numprocs : ℕ}

section Peers

/-- The next value of `dst`. -/
def next (dst : Fin numprocs) : Fin numprocs :=
  ⟨(dst + 1) % numprocs, Nat.mod_lt _ dst.pos⟩

/-- The values of `dst` in the two loops of an iteration. -/
def peers (rank : Fin numprocs) : List (Fin numprocs) :=
  around next rank numprocs (next rank)

theorem next_val (dst : Fin numprocs) : (next dst).val = (dst + 1) % numprocs := rfl

theorem peers_nodup (rank : Fin numprocs) : (peers rank).Nodup :=
  around_nodup next_val rank

theorem length_peers (rank : Fin numprocs) : (peers rank).length = numprocs - 1 :=
  length_around next_val rank

theorem count_peers (rank peer : Fin numprocs) :
    (peers rank).count peer = if peer ≠ rank then 1 else 0 := by
  rw [(peers_nodup rank).count]
  simp only [peers, mem_around next_val rank]

end Peers

section Exchange

variable (setting : Setting numprocs) (size : Power (setting.options.maxSize numprocs))
  (rank : Fin numprocs)

/-- The send buffer is filled with ones. -/
def payload : List UInt8 :=
  List.replicate size.value 1

/-- A message to `dst`. -/
def message (dst : Fin numprocs) : Outgoing numprocs :=
  ⟨dst * size.value, payload setting size, dst⟩

/-- The offset does not overflow an `int`. -/
theorem offset_lt (dst : Fin numprocs) : dst * size.value < 2 ^ 31 := by
  have whole := setting.options.maxSize_mul_le numprocs
  have limit := setting.options.maxMemLimit_int
  have inside : dst * size.value ≤ numprocs * setting.options.maxSize numprocs :=
    Nat.mul_le_mul dst.isLt.le size.le
  rw [Nat.mul_comm numprocs] at inside
  omega

theorem message_fits (dst : Fin numprocs) :
    ((message setting size dst).op (setting.sendBuffer rank)).Fits := by
  have long : (payload setting size).length = size.value := List.length_replicate
  constructor
  · have inside : (dst.val + 1) * size.value ≤ numprocs * setting.options.maxSize numprocs :=
      Nat.mul_le_mul dst.isLt size.le
    unfold Context.inBounds message
    rw [setting.sendBuffer_bytes, long, ← Nat.succ_mul, Nat.mul_comm (setting.options.maxSize _)]
    exact (Nat.mod_le _ _).trans inside
  · exact long.trans_le (size.le.trans setting.small)

theorem dest_messages (dests : List (Fin numprocs)) :
    (dests.map (message setting size)).map Outgoing.dest = dests := by
  rw [List.map_map]
  exact List.map_id dests

/-- What a rank does after it has sent its messages. -/
def receiveAll : Script numprocs :=
  .receives (peers rank) ++ .flush ++ .giveBack

theorem ahead_receiveAll (peer : Fin numprocs) : Op.ahead peer (receiveAll rank).ops = 0 := by
  have skips (sources : List (Fin numprocs)) (rest : List (Op numprocs)) :
      Op.ahead peer (sources.map .zrecv ++ rest) = Op.ahead peer rest := by
    induction sources with
    | nil => rfl
    | cons source others ih => exact ih
  rw [receiveAll, Script.ops_append, Script.ops_append, Script.ops_receives, List.append_assoc,
    skips]
  rfl

/-- One iteration. -/
def exchange : Phase numprocs := fun rank =>
  .sendsThen (setting.sendBuffer rank) ((peers rank).map (message setting size)) (receiveAll rank)
    (by
      intro outgoing member
      obtain ⟨dst, -, rfl⟩ := List.mem_map.mp member
      exact message_fits setting size rank dst)
    (by
      intro peer
      rw [ahead_receiveAll, dest_messages, Nat.zero_add]
      exact (List.nodup_iff_count_le_one.mp (peers_nodup rank) peer).trans (by decide))

end Exchange

section Main

variable (setting : Setting numprocs)

/-- What the loop over the sizes does between two barriers, from the first barrier on. -/
def measure : Options → List (Power (setting.options.maxSize numprocs)) → List (Phase numprocs)
  | _, [] => []
  | options, size :: rest =>
      let current := options.forSize size.value
      List.replicate (current.iterations + current.skip) (exchange setting size) ++
        Phase.idle :: Phase.idle :: measure current rest

def main : List (Phase numprocs) :=
  measure setting setting.options
    (Power.doublings _ (setting.options.maxSize numprocs) setting.options.minMessageSize
      setting.options.minMessageSize_pow)

end Main

end Ympi.Clients.Zalltoall
