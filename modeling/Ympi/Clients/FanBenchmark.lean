import Ympi.Clients.Plays
import Ympi.Foundation.Doubling
import Ympi.Foundation.RoundTable

/-! # The fan benchmark

`ympi_fan` measures four patterns one after the other, each for 2, 4, 8, ... ranks and for
messages of 32, 64, ..., 4096 bytes: rank 0 sends to all others, all others send to rank 0,
ranks 0 and 1 answer each other, and all ranks send to each other. It makes sixteen calls of a
pattern between two barriers.
-/

namespace Ympi.Clients.Fan

open LinkedList Foundation Messaging

/-- The variable `bytes` of `main`. -/
def bytes : ℕ := 4 * 1024

/-- The variable `iter` of `main`. -/
def iter : ℕ := 16

variable {nprocs : ℕ}

/-- The send buffer that each process allocates. There are ranks 0 and 1. -/
structure Setting (nprocs : ℕ) where
  sendBuffer : Fin nprocs → RdmaBuffer
  sendBuffer_bytes : ∀ rank, (sendBuffer rank).bytes = nprocs * bytes
  two_le : 2 ≤ nprocs

namespace Setting

variable (setting : Setting nprocs)

def rank0 : Fin nprocs := ⟨0, Nat.zero_lt_of_lt setting.two_le⟩

def rank1 : Fin nprocs := ⟨1, setting.two_le⟩

@[simp] theorem rank0_eq {rank : Fin nprocs} : setting.rank0 = rank ↔ rank.val = 0 := by
  rw [Fin.ext_iff, eq_comm]
  rfl

@[simp] theorem rank1_eq {rank : Fin nprocs} : setting.rank1 = rank ↔ rank.val = 1 := by
  rw [Fin.ext_iff, eq_comm]
  rfl

/-- The `nb` bytes of the send buffer, which is filled with zeros. -/
def payload (nb : Power bytes) : List UInt8 :=
  List.replicate nb.value 0

theorem length_payload (nb : Power bytes) : (payload nb).length = nb.value :=
  List.length_replicate

theorem payload_small (nb : Power bytes) : (payload nb).length ≤ vbufBytes := by
  rw [length_payload]
  exact nb.le.trans (by decide)

/-- The message to each rank has its place in the buffer. -/
theorem inBounds (rank : Fin nprocs) (nb : Power bytes) {slot : ℕ} (inside : slot < nprocs) :
    Context.inBounds (setting.sendBuffer rank) (slot * nb.value) (payload nb).length := by
  unfold Context.inBounds
  rw [setting.sendBuffer_bytes, length_payload, ← Nat.succ_mul]
  exact (Nat.mod_le _ _).trans (Nat.mul_le_mul inside nb.le)

theorem inBounds_zero (rank : Fin nprocs) (nb : Power bytes) :
    Context.inBounds (setting.sendBuffer rank) 0 (payload nb).length := by
  have first := setting.inBounds rank nb setting.rank0.isLt
  rwa [rank0, Nat.zero_mul] at first

end Setting

section Partners

/-- The ranks `1`, ..., `np - 1`. -/
def others (np : Power nprocs) : List (Fin nprocs) :=
  ((List.finRange np.value).drop 1).map (Fin.castLE np.le)

/-- The variable `np_mask`. -/
def npMask (np : Power nprocs) : ℕ :=
  np.value - 1

/-- The next value of `q`. -/
def next (np : Power nprocs) (q : Fin np.value) : Fin np.value :=
  ⟨(q + 1) &&& npMask np, Nat.lt_of_le_of_lt Nat.and_le_right (Nat.sub_lt np.pos one_pos)⟩

/-- The values of `q` in the loops of `do_allputall`. -/
def partners (np : Power nprocs) (rank : Fin np.value) : List (Fin nprocs) :=
  (around (next np) rank np.value (next np rank)).map (Fin.castLE np.le)

theorem others_nodup (np : Power nprocs) : (others np).Nodup :=
  ((List.nodup_finRange _).sublist (List.drop_sublist _ _)).map (Fin.castLE_injective np.le)

theorem length_others (np : Power nprocs) : (others np).length = np.value - 1 := by
  simp [others]

theorem mem_others {np : Power nprocs} {peer : Fin nprocs} :
    peer ∈ others np ↔ 0 < peer.val ∧ peer.val < np.value := by
  constructor
  · intro member
    obtain ⟨inner, listed, rfl⟩ := List.mem_map.mp member
    have above : 1 ≤ inner.val := mem_drop_finRange.mp listed
    exact ⟨above, inner.isLt⟩
  · rintro ⟨above, below⟩
    exact List.mem_map.mpr ⟨⟨peer, below⟩, mem_drop_finRange.mpr above, rfl⟩

theorem count_others (np : Power nprocs) (peer : Fin nprocs) :
    (others np).count peer = if 0 < peer.val ∧ peer.val < np.value then 1 else 0 := by
  rw [(others_nodup np).count]
  simp only [mem_others]

theorem next_val (np : Power nprocs) (q : Fin np.value) :
    (next np q).val = (q + 1) % np.value :=
  np.and_pred (q + 1)

theorem partners_nodup (np : Power nprocs) (rank : Fin np.value) : (partners np rank).Nodup :=
  (around_nodup (next_val np) rank).map (Fin.castLE_injective np.le)

theorem length_partners (np : Power nprocs) (rank : Fin np.value) :
    (partners np rank).length = np.value - 1 := by
  rw [partners, List.length_map, length_around (next_val np)]

theorem count_partners (np : Power nprocs) (rank : Fin np.value) (peer : Fin nprocs) :
    (partners np rank).count peer = if peer.val < np.value ∧ peer.val ≠ rank.val then 1 else 0 := by
  rw [(partners_nodup np rank).count]
  congr 1
  apply propext
  constructor
  · intro member
    obtain ⟨inner, listed, rfl⟩ := List.mem_map.mp member
    exact ⟨inner.isLt, fun same => (mem_around (next_val np) rank).mp listed (Fin.ext same)⟩
  · rintro ⟨inside, apart⟩
    refine List.mem_map.mpr ⟨⟨peer, inside⟩, (mem_around (next_val np) rank).mpr ?_, rfl⟩
    intro same
    exact apart (congrArg Fin.val same)

end Partners

section Actions

variable (setting : Setting nprocs)

/-- A pattern: the calls that a rank makes in one call of it. -/
abbrev Pattern (nprocs : ℕ) := Power nprocs → Power bytes → Phase nprocs

/-- `YMPI_Zsend` of `nb` bytes from the start of the buffer to each of the ranks, and
`YMPI_Zflush` -/
def sendStart (rank : Fin nprocs) (nb : Power bytes) (dests : List (Fin nprocs))
    (distinct : dests.Nodup) : Script nprocs :=
  .sends (setting.sendBuffer rank) (fun _ => 0) (Setting.payload nb) dests
    (fun _ _ => setting.inBounds_zero rank nb) (Setting.payload_small nb) distinct

/-- `YMPI_Zsend` of `nb` bytes to one rank, and `YMPI_Zflush` -/
abbrev sendTo (rank : Fin nprocs) (nb : Power bytes) (dest : Fin nprocs) : Script nprocs :=
  sendStart setting rank nb [dest] (List.nodup_singleton dest)

def doFanout : Pattern nprocs := fun np nb rank =>
  if rank.val = 0 then
    sendStart setting rank nb (others np) (others_nodup np)
  else if rank.val < np.value then
    .receives [setting.rank0] ++ .giveBack
  else .done

def doFanin : Pattern nprocs := fun np nb rank =>
  if rank.val = 0 then
    .receives (others np) ++ .giveBack
  else if rank.val < np.value then
    sendTo setting rank nb setting.rank0
  else .done

def doPingpong : Pattern nprocs := fun _ nb rank =>
  if rank.val = 0 then
    sendTo setting rank nb setting.rank1 ++ .receives [setting.rank1]
  else if rank.val = 1 then
    .receives [setting.rank0] ++ sendTo setting rank nb setting.rank0
  else .done

def doAllputall : Pattern nprocs := fun np nb rank =>
  if inside : rank.val < np.value then
    .sends (setting.sendBuffer rank) (fun q => q.val * nb.value) (Setting.payload nb)
        (partners np ⟨rank, inside⟩) (fun q _ => setting.inBounds rank nb q.isLt)
        (Setting.payload_small nb) (partners_nodup np ⟨rank, inside⟩) ++
      .receives (partners np ⟨rank, inside⟩) ++ .giveBack
  else .done

/-- The calls of a pattern between two barriers. -/
def phase (pattern : Pattern nprocs) (np : Power nprocs) (nb : Power bytes) : Phase nprocs :=
  fun rank => if rank.val < np.value then (pattern np nb rank).times iter else .done

/-- The macro `TEST`. -/
def test (pattern : Pattern nprocs) (limit : ℕ) (le : limit ≤ nprocs) : List (Phase nprocs) :=
  (Power.doublings limit limit 2 ⟨1, rfl⟩).flatMap fun np =>
    (Power.doublings bytes bytes 32 ⟨5, rfl⟩).map fun nb => phase pattern (np.weaken le) nb

theorem mem_test {pattern : Pattern nprocs} {limit : ℕ} {le : limit ≤ nprocs}
    {calls : Phase nprocs} (member : calls ∈ test pattern limit le) :
    ∃ np nb, calls = phase pattern np nb ∧ 2 ≤ np.value ∧ np.value ≤ limit := by
  obtain ⟨np, listed, inner⟩ := List.mem_flatMap.mp member
  obtain ⟨nb, -, rfl⟩ := List.mem_map.mp inner
  have least := Power.le_of_mem_doublings listed
  exact ⟨np.weaken le, nb, rfl, least, np.le⟩

/-- What `main` does between two barriers, from its first barrier on. -/
def main : List (Phase nprocs) :=
  test (doFanout setting) nprocs le_rfl ++ test (doFanin setting) nprocs le_rfl ++
    test (doPingpong setting) 2 setting.two_le ++ test (doAllputall setting) nprocs le_rfl

end Actions

end Ympi.Clients.Fan
