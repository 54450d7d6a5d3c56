import Ympi.Clients.PointToPointTest
import Ympi.OneSided.Completion

/-! # The RDMA tests

In three tests of `test_ympi` rank 0 writes words into the memory of rank 1, flushes after each
batch of them, and then writes a signal, for which rank 1 waits before it looks at the words. In
the last one rank 1 reads words from the memory of rank 0, flushes, and looks at what it has got.
-/

namespace Ympi.OneSided.RdmaTests

open Foundation Messaging Clients PointToPoint

/-- The variable `total_io` of `main`. -/
def totalIo : ℕ := 8 * 1024 * 1024

/-- `YMPI_PAGE_SIZE` -/
def pageSize : ℕ := 1024 * 1024

/-- What a `uint64_t*` points to. -/
def load (mem : ℕ → UInt8) (address : ℕ) : ℕ :=
  numberOf (readBlock mem address 8)

/-- The buffer of `total_io` words that the issuer has allocated, and the one of the target, which
every registration for remote atomics lets others read and write. -/
structure Setting (remoteBytes : ℕ) where
  near : RdmaBuffer
  near_bytes : near.bytes = totalIo * 8
  near_end : near.buf + totalIo * 8 ≤ 2 ^ 64
  far : RdmaBuffer
  far_covered : far.mr.covers far.buf remoteBytes
  remoteWrite : far.mr.remoteWrite = true
  remoteRead : far.mr.remoteRead = true
  rights : List Mr
  registered : far.mr ∈ rights

/-- A word of the issuer lies in its buffer. -/
theorem Setting.near_fits {remoteBytes : ℕ} (setting : Setting remoteBytes) {i : ℕ}
    (inside : i < totalIo) : Context.inBounds setting.near (i * 8) 8 ∧
      setting.near.buf + i * 8 < 2 ^ 64 := by
  have bytes := setting.near_bytes
  have last := setting.near_end
  refine ⟨?_, by omega⟩
  exact (Nat.mod_le (i * 8 + 8) (2 ^ 64)).trans (by omega)

/-- The words of a buffer are apart. -/
theorem words_apart (base : ℕ) {i j : ℕ} (distinct : j ≠ i) :
    Apart (base + i * 8) 8 (base + j * 8) 8 := by
  unfold Apart
  omega

/-- A memory that holds the words from `base` on. -/
def filled (base : ℕ) : ℕ → UInt8 := fun address =>
  (bytesOf 8 (expected ((address - base) / 8))).getD ((address - base) % 8) 0

theorem load_filled (base : ℕ) {i : ℕ} (inside : i < totalIo) :
    load (filled base) (base + i * 8) = expected i := by
  have held : readBlock (filled base) (base + i * 8) 8 = bytesOf 8 (expected i) := by
    apply List.ext_getElem?
    intro k
    by_cases small : k < 8
    · have index : (base + i * 8 + k - base) / 8 = i := by omega
      have place : (base + i * 8 + k - base) % 8 = k := by omega
      have room : k < (bytesOf 8 (expected i)).length := by rwa [length_bytesOf]
      rw [getElem?_readBlock _ _ small, filled, index, place,
        List.getD_eq_getElem?_getD, List.getElem?_eq_getElem room, Option.getD_some]
    · rw [List.getElem?_eq_none (by simpa using small), List.getElem?_eq_none (by simpa using small)]
  have limit : totalIo = 8388608 := rfl
  have fits : expected i < 256 ^ 8 := by
    unfold expected
    omega
  rw [load, held, numberOf_bytesOf, Nat.mod_eq_of_lt fits]

/-- Buffers of both sides. -/
def allocated (remoteBytes : ℕ) : Setting remoteBytes where
  near := ⟨pageSize, totalIo * 8, ⟨pageSize, totalIo * 8, 1, 1, true, true⟩⟩
  near_bytes := rfl
  near_end := by decide
  far := ⟨pageSize, remoteBytes, ⟨pageSize, remoteBytes, 2, 2, true, true⟩⟩
  far_covered := ⟨Nat.le_refl _, Nat.le_refl _⟩
  remoteWrite := rfl
  remoteRead := rfl
  rights := [⟨pageSize, remoteBytes, 2, 2, true, true⟩]
  registered := List.mem_cons_self

section Writes

variable (setting : Setting (pageSize + totalIo * 8))

/-- Where rank 1 expects the word `i`. -/
def slot (i : ℕ) : ℕ :=
  setting.far.buf + pageSize + i * 8

/-- The call that writes the word `i`. -/
def writeWord (i : ℕ) : Access :=
  .write setting.near (i * 8) 8 setting.far.mr.rkey (slot setting i)

/-- A turn of the outer loop. -/
def batch (size turn : ℕ) : List Access :=
  (List.range' (turn * size) size).map (writeWord setting) ++ [.flush]

/-- The loops over all words. -/
def writes (turns size : ℕ) : List Access :=
  (List.range turns).flatMap (batch setting size)

/-- The call that writes `sig`. -/
def signal : Access :=
  .write setting.near 0 8 setting.far.mr.rkey setting.far.buf

/-- The calls of rank 0, with the `YMPI_Zflush` after the test. -/
def writeAccesses (turns size : ℕ) : List Access :=
  -- the buffer stays registered here, while the source deallocates it before this flush
  writes setting turns size ++ [signal setting, .flush]

/-- The copy that the write of the word `i` asks for. -/
def putWord (i : ℕ) : Copy :=
  .put (setting.near.buf + i * 8) (slot setting i) 8

variable {turns size : ℕ}

theorem copies_batch (turn : ℕ) : (batch setting size turn).flatMap Access.copies =
    (List.range' (turn * size) size).map (putWord setting) := by
  rw [batch, List.flatMap_append, List.flatMap_map, List.flatMap_singleton]
  exact (List.append_nil _).trans (List.flatMap_pure_eq_map _ _)

/-- The loops write the words in order. -/
theorem copies_writes : (writes setting turns size).flatMap Access.copies =
    (List.range (turns * size)).map (putWord setting) := by
  induction turns with
  | zero => simp [writes]
  | succ turns ih =>
      rw [writes, List.range_succ, List.flatMap_append, List.flatMap_append, ← writes, ih,
        List.flatMap_singleton, copies_batch, ← List.map_append, Nat.succ_mul,
        List.range_eq_range', List.range_eq_range', ← List.range'_append_1, Nat.zero_add]

/-- A call of the loops writes a word or flushes. -/
theorem mem_writes {access : Access} (whole : turns * size = totalIo)
    (member : access ∈ writes setting turns size) :
    (∃ i < totalIo, access = writeWord setting i) ∨ access = .flush := by
  obtain ⟨turn, early, own⟩ := List.mem_flatMap.mp member
  rcases List.mem_append.mp own with word | last
  · obtain ⟨i, listed, rfl⟩ := List.mem_map.mp word
    obtain ⟨k, below, rfl⟩ := List.mem_range'.mp listed
    refine Or.inl ⟨_, ?_, rfl⟩
    have most : (turn + 1) * size ≤ turns * size :=
      Nat.mul_le_mul_right size (List.mem_range.mp early)
    rw [Nat.succ_mul] at most
    omega
  · exact Or.inr (List.mem_singleton.mp last)

theorem writeWord_fits {i : ℕ} (inside : i < totalIo) :
    (writeWord setting i).Fits setting.rights := by
  obtain ⟨bounded, small⟩ := setting.near_fits inside
  obtain ⟨low, high⟩ := setting.far_covered
  refine ⟨bounded, small, by decide, Or.inr ⟨_, setting.registered, rfl, setting.remoteWrite, ?_⟩⟩
  unfold slot
  constructor <;> omega

theorem signal_fits : (signal setting).Fits setting.rights := by
  obtain ⟨bounded, small⟩ := setting.near_fits (i := 0) (by decide)
  obtain ⟨low, high⟩ := setting.far_covered
  rw [Nat.zero_mul] at bounded small
  refine ⟨bounded, small, by decide, Or.inr ⟨_, setting.registered, rfl, setting.remoteWrite, ?_⟩⟩
  have room : 8 ≤ pageSize := by decide
  constructor <;> omega

/-- The calls of a write test: words, the signal, and flushes. -/
theorem mem_writeAccesses {access : Access} (whole : turns * size = totalIo)
    (member : access ∈ writeAccesses setting turns size) :
    (∃ i < totalIo, access = writeWord setting i) ∨ access = signal setting ∨ access = .flush := by
  rcases List.mem_append.mp member with loops | last
  · exact (mem_writes setting whole loops).imp id Or.inr
  · simp only [List.mem_cons, List.not_mem_nil, or_false] at last
    exact Or.inr last

theorem writeAccesses_fit (whole : turns * size = totalIo) :
    ∀ access ∈ writeAccesses setting turns size, access.Fits setting.rights := by
  intro access member
  rcases mem_writeAccesses setting whole member with ⟨i, inside, rfl⟩ | rfl | rfl
  · exact writeWord_fits setting inside
  · exact signal_fits setting
  · trivial

theorem writeAccesses_careful (whole : turns * size = totalIo) :
    Access.Careful (writeAccesses setting turns size) := by
  apply Access.careful_of_isPut
  intro access member copy own
  rcases mem_writeAccesses setting whole member with ⟨i, -, rfl⟩ | rfl | rfl
  · rw [List.mem_singleton.mp own]
    rfl
  · rw [List.mem_singleton.mp own]
    rfl
  · cases own

/-- A write test with `turns` batches of `size` words. The three tests are the one of a single
batch and those with batches of four and of eight words. -/
def writeTest (whole : turns * size = totalIo) : Program 2 where
  issuer := ⟨0, Nat.two_pos⟩
  target := ⟨1, Nat.one_lt_two⟩
  distinct := rank0_ne_rank1
  rights := setting.rights
  accesses := writeAccesses setting turns size
  fits := writeAccesses_fit setting whole
  careful := writeAccesses_careful setting whole

/-- The copies of the test: the words and then the signal. -/
theorem copies_writeAccesses (whole : turns * size = totalIo) :
    (writeAccesses setting turns size).flatMap Access.copies =
      (List.range totalIo).map (putWord setting) ++
        [.put setting.near.buf setting.far.buf 8] := by
  rw [writeAccesses, List.flatMap_append, copies_writes, whole]
  rfl

/-- While the signal has not been written, its place is as at the start. -/
theorem unsignalled {front : List Copy} {start : Stores UInt8}
    (early : front <+: (List.range totalIo).map (putWord setting)) :
    load (Copy.performAll start front).far setting.far.buf = load start.far setting.far.buf := by
  unfold load
  rw [Copy.far_performAll]
  intro copy member
  obtain ⟨i, -, rfl⟩ := List.mem_map.mp (early.subset member)
  have room : 8 ≤ pageSize := by decide
  refine Or.inl ?_
  unfold slot
  omega

/-- When rank 0 has returned from its last flush, the signal is the first word. -/
theorem signal_seen {start : Stores UInt8} (whole : turns * size = totalIo)
    {events : List (Event 2)} {state : State 2}
    (reached : ((writeTest setting whole).system start).Reaches events state)
    (finished : (writeTest setting whole).Finished state) :
    load (state.cluster 1).mem setting.far.buf = load start.near setting.near.buf := by
  have made := copies_made reached finished (by
    change (writeAccesses setting turns size).getLast? = _
    rw [writeAccesses, List.getLast?_append]
    rfl)
  have memory : (state.cluster 1).mem = (Copy.performAll start
      ((writeAccesses setting turns size).flatMap Access.copies)).far :=
    congrArg Stores.far made
  rw [memory, copies_writeAccesses setting whole]
  unfold load
  rw [Copy.far_put (by simp), Copy.near_performAll]
  intro copy member
  obtain ⟨i, -, rfl⟩ := List.mem_map.mp member
  trivial

/-- **The write tests pass.** Once rank 1 sees the signal, it finds every word in its place. -/
theorem write_tests_pass {start : Stores UInt8} (whole : turns * size = totalIo)
    (stored : ∀ i < totalIo, load start.near (setting.near.buf + i * 8) = expected i)
    (cleared : load start.far setting.far.buf = 0) {events : List (Event 2)} {state : State 2}
    (reached : ((writeTest setting whole).system start).Reaches events state)
    (signalled : load (state.cluster 1).mem setting.far.buf ≠ 0) :
    ∀ i < totalIo, load (state.cluster 1).mem (slot setting i) = expected i := by
  obtain ⟨done, front, missing, parts, turned, stores, -, -⟩ := copies_in_order reached
  have memory : (state.cluster 1).mem = (Copy.performAll start front).far :=
    congrArg Stores.far stores
  have listed : writeAccesses setting turns size = done ++ state.todo := parts
  have puts : ∀ copy ∈ done.flatMap Access.copies, copy.isPut = true := by
    intro copy member
    have asked : copy ∈ (writeAccesses setting turns size).flatMap Access.copies := by
      rw [listed, List.flatMap_append]
      exact List.mem_append_left _ member
    rw [copies_writeAccesses setting whole] at asked
    rcases List.mem_append.mp asked with word | last
    · obtain ⟨i, -, rfl⟩ := List.mem_map.mp word
      rfl
    · rw [List.mem_singleton.mp last]
      rfl
  have within : front <+: (writeAccesses setting turns size).flatMap Access.copies := by
    rw [listed, List.flatMap_append, turned.eq_of_side puts, List.append_assoc]
    exact List.prefix_append _ _
  rw [copies_writeAccesses setting whole, List.prefix_concat_iff] at within
  rw [memory] at signalled ⊢
  rcases within with all | before
  · intro i inside
    rw [← stored i inside, all]
    unfold load
    apply congrArg
    apply Copy.far_puts inside (fun j _ other => words_apart _ other)
    intro copy last
    rw [List.mem_singleton.mp last]
    have room : 8 ≤ pageSize := by decide
    refine Or.inr ?_
    unfold slot
    omega
  · rw [unsignalled setting before, cleared] at signalled
    exact absurd rfl signalled

/-- The buffers of the write tests. -/
def writeBuffers : Setting (pageSize + totalIo * 8) :=
  allocated _

/-- The memories at the start of the write tests. -/
def writeMemories : Stores UInt8 where
  near := filled writeBuffers.near.buf
  far _ := 0

theorem four_whole : 2097152 * 4 = totalIo := rfl

/-- The test with batches of four words. -/
theorem write_tests_pass_four : ∃ events state,
    ((writeTest writeBuffers four_whole).system writeMemories).Reaches events state ∧
    ∀ i < totalIo, load (state.cluster 1).mem (slot writeBuffers i) = expected i := by
  obtain ⟨first, initial⟩ :=
    (writeTest writeBuffers four_whole).exists_initial writeMemories (by decide)
  obtain ⟨more, state, execution, finished⟩ := can_finish (.initial initial)
  have reached : ((writeTest writeBuffers four_whole).system writeMemories).Reaches more state :=
    ⟨first, initial, execution⟩
  have stored (i : ℕ) (inside : i < totalIo) :
      load writeMemories.near (writeBuffers.near.buf + i * 8) = expected i := by
    unfold writeMemories
    generalize writeBuffers.near.buf = base
    exact load_filled base inside
  have cleared : load writeMemories.far writeBuffers.far.buf = 0 := rfl
  have signalled : load (state.cluster 1).mem writeBuffers.far.buf ≠ 0 := by
    have word := stored 0 (by decide)
    rw [Nat.zero_mul, Nat.add_zero] at word
    rw [signal_seen writeBuffers four_whole reached finished, word]
    decide
  exact ⟨more, state, reached,
    write_tests_pass writeBuffers four_whole stored cleared reached signalled⟩

end Writes

section Reads

variable (setting : Setting (totalIo * 8))

/-- The call that reads the word `i`. -/
def readWord (i : ℕ) : Access :=
  .read setting.near (i * 8) 8 setting.far.mr.rkey (setting.far.buf + i * 8)

/-- The calls of rank 1. -/
def readAccesses : List Access :=
  (List.range totalIo).map (readWord setting) ++ [.flush]

/-- The copy that the read of the word `i` asks for. -/
def getWord (i : ℕ) : Copy :=
  .get (setting.near.buf + i * 8) (setting.far.buf + i * 8) 8

theorem copies_readAccesses : (readAccesses setting).flatMap Access.copies =
    (List.range totalIo).map (getWord setting) ++ [] := by
  rw [readAccesses, List.flatMap_append, List.flatMap_map, List.flatMap_singleton]
  exact congrArg (· ++ []) (List.flatMap_pure_eq_map _ _)

theorem mem_readAccesses {access : Access} (member : access ∈ readAccesses setting) :
    (∃ i < totalIo, access = readWord setting i) ∨ access = .flush := by
  rcases List.mem_append.mp member with word | last
  · obtain ⟨i, listed, rfl⟩ := List.mem_map.mp word
    exact Or.inl ⟨i, List.mem_range.mp listed, rfl⟩
  · exact Or.inr (List.mem_singleton.mp last)

theorem readAccesses_fit : ∀ access ∈ readAccesses setting, access.Fits setting.rights := by
  intro access member
  rcases mem_readAccesses setting member with ⟨i, inside, rfl⟩ | rfl
  · obtain ⟨bounded, small⟩ := setting.near_fits inside
    obtain ⟨low, high⟩ := setting.far_covered
    refine ⟨bounded, small, by decide, Or.inr ⟨_, setting.registered, rfl, setting.remoteRead, ?_⟩⟩
    constructor <;> omega
  · trivial

theorem readAccesses_careful : Access.Careful (readAccesses setting) := by
  apply Access.careful_of_isPut
  intro access member copy own
  rcases mem_readAccesses setting member with ⟨i, -, rfl⟩ | rfl
  · rw [List.mem_singleton.mp own]
    rfl
  · cases own

theorem rank1_ne_rank0 : (⟨1, Nat.one_lt_two⟩ : Fin 2) ≠ ⟨0, Nat.two_pos⟩ := by
  decide

/-- The read test. -/
def readTest : Program 2 where
  issuer := ⟨1, Nat.one_lt_two⟩
  target := ⟨0, Nat.two_pos⟩
  distinct := rank1_ne_rank0
  rights := setting.rights
  accesses := readAccesses setting
  fits := readAccesses_fit setting
  careful := readAccesses_careful setting

/-- **The read test passes.** Rank 1 can always come to its flush, and when that has returned it
finds every word of rank 0 in its place. -/
theorem read_test_passes {start : Stores UInt8}
    (stored : ∀ i < totalIo, load start.far (setting.far.buf + i * 8) = expected i)
    {events : List (Event 2)} {state : State 2}
    (reached : ((readTest setting).system start).Reaches events state) :
    ((readTest setting).Finished state → ∀ i < totalIo,
      load (state.cluster 1).mem (setting.near.buf + i * 8) = expected i) ∧
    ∃ more after, ((readTest setting).system start).Execution state more after ∧
      (readTest setting).Finished after := by
  refine ⟨?_, can_finish reached⟩
  intro finished i inside
  have made := copies_made reached finished (by
    change (readAccesses setting).getLast? = _
    rw [readAccesses, List.getLast?_append]
    rfl)
  have memory : (state.cluster 1).mem = (Copy.performAll start
      ((readAccesses setting).flatMap Access.copies)).near :=
    congrArg Stores.near made
  rw [memory, copies_readAccesses, ← stored i inside]
  unfold load
  apply congrArg
  exact Copy.near_gets inside (fun j _ other => words_apart _ other) (by simp)

/-- The buffers of the read test. -/
def readBuffers : Setting (totalIo * 8) :=
  allocated _

/-- The memories at the start of the read test. -/
def readMemories : Stores UInt8 where
  near _ := 0
  far := filled readBuffers.far.buf

theorem read_test_passes_allocated : ∃ state, (readTest readBuffers).Initial readMemories state ∧
    ∃ more after, ((readTest readBuffers).system readMemories).Execution state more after ∧
      (readTest readBuffers).Finished after := by
  obtain ⟨state, initial⟩ := (readTest readBuffers).exists_initial readMemories (by decide)
  have stored (i : ℕ) (inside : i < totalIo) :
      load readMemories.far (readBuffers.far.buf + i * 8) = expected i := by
    unfold readMemories
    generalize readBuffers.far.buf = base
    exact load_filled base inside
  exact ⟨state, initial, (read_test_passes readBuffers stored (.initial initial)).2⟩

end Reads

end Ympi.OneSided.RdmaTests
