import Ympi.FanOut.Server

/-! # The receivers of the fan-out benchmark

`NEXT_SEED` gives no seeds but 32 and 33, so the four threads come to six seeds in all, and each
of them within two iterations. These are enough for four receivers, but not for more. A
receiver that no thread writes to compares what it found there with its rank.
-/

namespace Ympi.FanOut

open Messaging

section Seeds

variable {id : ℕ}

/-- The seeds that the threads come to. -/
def seeds : List UInt32 := [0, 1, 2, 3, 32, 33]

theorem mem_seeds_iff {seed : UInt32} : seed ∈ seeds ↔ seed.toNat < 4 ∨ seed = 32 ∨ seed = 33 := by
  simp only [seeds, List.mem_cons, List.not_mem_nil, or_false, ← UInt32.toNat_inj,
    UInt32.reduceToNat]
  omega

/-- The remainder is a bit, and the exclusive or adds 32 to it. -/
theorem nextSeed_eq (seed : UInt32) : nextSeed seed = 32 ∨ nextSeed seed = 33 := by
  have bit : (1103515245 * seed + 12345) % 2 = 0 ∨ (1103515245 * seed + 12345) % 2 = 1 := by
    simp only [← UInt32.toNat_inj, UInt32.toNat_mod, UInt32.reduceToNat]
    exact Nat.mod_two_eq_zero_or_one _
  rw [nextSeed]
  rcases bit with even | odd
  · left
    rw [even]
    rfl
  · right
    rw [odd]
    rfl

/-- **Seeds.** A thread starts at its id, and behind that there are two seeds for all. -/
theorem nextSeed_mem_seeds (thread : id < numThreads) (turn : ℕ) :
    nextSeed^[turn] (UInt32.ofNat id) ∈ seeds := by
  rw [mem_seeds_iff]
  cases turn with
  | zero =>
      have same : (UInt32.ofNat id).toNat = id :=
        UInt32.toNat_ofNat_of_lt (thread.trans (by decide))
      exact .inl (same.trans_lt thread)
  | succ turn =>
      rw [Function.iterate_succ_apply']
      exact .inr (nextSeed_eq _)

/-- Each of the seeds is among the first two of some thread. -/
theorem exists_early_eq {seed : UInt32} (member : seed ∈ seeds) :
    ∃ id < numThreads, ∃ turn < 1 + 1, nextSeed^[turn] (UInt32.ofNat id) = seed := by
  rcases mem_seeds_iff.mp member with small | rfl | rfl
  · exact ⟨seed.toNat, small, 0, Nat.two_pos, UInt32.ofNat_toNat⟩
  · exact ⟨1, by decide, 1, Nat.one_lt_two, rfl⟩
  · exact ⟨0, by decide, 1, Nat.one_lt_two, rfl⟩

end Seeds

variable {nprocs : ℕ}

section Writes

variable {args : ServerArgs nprocs} {calls rest : List (Call nprocs)} {receiver : Fin nprocs}

@[simp]
theorem destinations_append :
    destinations (calls ++ rest) = destinations calls ++ destinations rest :=
  List.filterMap_append

@[simp]
theorem destinations_writeTo : destinations (args.writeTo receiver) = [receiver] :=
  rfl

theorem destinations_flatMap (turns : List ℕ) (dests : ℕ → Fin nprocs) :
    destinations (turns.flatMap fun turn => args.writeTo (dests turn)) = turns.map dests := by
  induction turns with
  | nil => rfl
  | cons turn turns ih =>
      rw [List.flatMap_cons, destinations_append, destinations_writeTo, ih]
      rfl

/-- There are no receivers without a second process. -/
theorem test1Server_alone (alone : ¬2 ≤ nprocs) : args.test1Server = .error .divisionByZero := by
  rw [ServerArgs.test1Server, ServerArgs.writeLoop, chooseDest, dif_neg alone]
  rfl

/-- **Iterations.** A thread writes to the receivers that its seeds give. -/
theorem mem_destinations_iff (two : 2 ≤ nprocs) (ran : args.test1Server = .ok calls) :
    receiver ∈ destinations calls ↔
      ∃ turn < 1 + args.numIter, destOf two (nextSeed^[turn] (UInt32.ofNat args.id)) = receiver := by
  rw [ServerArgs.test1Server_ok two] at ran
  cases ran
  rw [destinations_flatMap, List.mem_map]
  simp only [List.mem_range]

end Writes

namespace ServerArgs

variable (args : ServerArgs nprocs) {receiver : Fin nprocs}

/-- The arguments of thread `id`, with a number of iterations. -/
def thread (id numIter : ℕ) : ServerArgs nprocs :=
  { args with id := id, numIter := numIter }

/-- Some thread writes to the receiver within some number of iterations. -/
def Reaches (receiver : Fin nprocs) : Prop :=
  ∃ id < numThreads, ∃ numIter calls, (args.thread id numIter).test1Server = .ok calls ∧
    receiver ∈ destinations calls

variable {args}

theorem exists_seed_of_mem (two : 2 ≤ nprocs) {id numIter : ℕ} {calls : List (Call nprocs)}
    (member : id < numThreads) (ran : (args.thread id numIter).test1Server = .ok calls)
    (written : receiver ∈ destinations calls) : ∃ seed ∈ seeds, destOf two seed = receiver := by
  obtain ⟨turn, _, chosen⟩ := (mem_destinations_iff two ran).mp written
  exact ⟨_, nextSeed_mem_seeds member turn, chosen⟩

/-- One measured iteration is enough for every seed. -/
theorem exists_mem_of_seed (two : 2 ≤ nprocs) {numIter : ℕ} (enough : 1 ≤ numIter) {seed : UInt32}
    (member : seed ∈ seeds) :
    ∃ id < numThreads, ∃ calls, (args.thread id numIter).test1Server = .ok calls ∧
      destOf two seed ∈ destinations calls := by
  obtain ⟨id, small, turn, early, same⟩ := exists_early_eq member
  have ran : (args.thread id numIter).test1Server = _ := test1Server_ok two
  refine ⟨id, small, _, ran, ?_⟩
  rw [mem_destinations_iff two ran, ← same]
  exact ⟨turn, Nat.lt_of_lt_of_le early (Nat.add_le_add_left enough 1), rfl⟩

theorem reaches_iff_seed (two : 2 ≤ nprocs) :
    args.Reaches receiver ↔ ∃ seed ∈ seeds, destOf two seed = receiver := by
  constructor
  · intro reached
    obtain ⟨id, member, numIter, calls, ran, written⟩ := reached
    exact exists_seed_of_mem two member ran written
  · intro given
    obtain ⟨seed, member, rfl⟩ := given
    obtain ⟨id, small, calls, ran, written⟩ := exists_mem_of_seed two le_rfl member
    exact ⟨id, small, 1, calls, ran, written⟩

/-- A seed below four gives a receiver up to rank four, and each of these comes from one. -/
theorem exists_seed_iff (two : 2 ≤ nprocs) : (∃ seed ∈ seeds, destOf two seed = receiver) ↔
    1 ≤ receiver.val ∧ (receiver.val ≤ 4 ∨ receiver.val = 1 + 32 % (nprocs - 1) ∨
      receiver.val = 1 + 33 % (nprocs - 1)) := by
  constructor
  · intro given
    obtain ⟨seed, member, rfl⟩ := given
    apply And.intro (Nat.le_add_right 1 _)
    rcases mem_seeds_iff.mp member with small | rfl | rfl
    · have below := Nat.mod_le seed.toNat (nprocs - 1)
      left
      change 1 + seed.toNat % (nprocs - 1) ≤ 4
      omega
    · exact .inr (.inl rfl)
    · exact .inr (.inr rfl)
  · intro condition
    obtain ⟨positive, small | thirtyTwo | thirtyThree⟩ := condition
    · have seedValue : (UInt32.ofNat (receiver - 1)).toNat = receiver.val - 1 :=
        UInt32.toNat_ofNat_of_lt (by simp only [UInt32.size]; omega)
      have unchanged : (receiver.val - 1) % (nprocs - 1) = receiver.val - 1 :=
        Nat.mod_eq_of_lt (by have := receiver.isLt; omega)
      refine ⟨UInt32.ofNat (receiver - 1), mem_seeds_iff.mpr (.inl (by omega)), ?_⟩
      apply Fin.ext
      change 1 + (UInt32.ofNat (receiver - 1)).toNat % (nprocs - 1) = receiver
      rw [seedValue, unchanged, Nat.add_sub_cancel' positive]
    · exact ⟨32, mem_seeds_iff.mpr (.inr (.inl rfl)), Fin.ext thirtyTwo.symm⟩
    · exact ⟨33, mem_seeds_iff.mpr (.inr (.inr rfl)), Fin.ext thirtyThree.symm⟩

theorem reaches_iff : args.Reaches receiver ↔
    1 ≤ receiver.val ∧ (receiver.val ≤ 4 ∨ receiver.val = 1 + 32 % (nprocs - 1) ∨
      receiver.val = 1 + 33 % (nprocs - 1)) := by
  by_cases two : 2 ≤ nprocs
  · rw [reaches_iff_seed two, exists_seed_iff two]
  · constructor
    · intro reached
      obtain ⟨_, _, _, _, ran, _⟩ := reached
      rw [test1Server_alone two] at ran
      cases ran
    · intro condition
      have bound := receiver.isLt
      omega

end ServerArgs

/-- **Coverage.** The threads write to every receiver exactly when there are at most four. Behind
rank four they write to no receivers but those of the seeds 32 and 33. -/
theorem fan_out_reaches_iff (args : ServerArgs nprocs) :
    ((∀ receiver : Fin nprocs, 1 ≤ receiver.val → args.Reaches receiver) ↔ nprocs ≤ 5) ∧
      ∀ receiver : Fin nprocs, args.Reaches receiver ↔
        1 ≤ receiver.val ∧ (receiver.val ≤ 4 ∨ receiver.val = 1 + 32 % (nprocs - 1) ∨
          receiver.val = 1 + 33 % (nprocs - 1)) := by
  refine ⟨?_, fun receiver => ServerArgs.reaches_iff⟩
  constructor
  · intro covered
    by_contra many
    have behind (rank : ℕ) (high : 4 < rank) (inside : rank < nprocs) :
        rank = 1 + 32 % (nprocs - 1) ∨ rank = 1 + 33 % (nprocs - 1) := by
      have reached := covered ⟨rank, inside⟩ (Nat.zero_lt_of_lt high)
      rw [ServerArgs.reaches_iff] at reached
      exact reached.2.resolve_left (Nat.not_le.mpr high)
    have fifth := behind 5 (by omega) (by omega)
    by_cases more : nprocs = 6 ∨ nprocs = 7
    · rcases more with rfl | rfl <;> simp at fifth
    · -- two seeds are not enough for the three receivers that follow
      have sixth := behind 6 (by omega) (by omega)
      have seventh := behind 7 (by omega) (by omega)
      omega
  · intro few receiver positive
    rw [ServerArgs.reaches_iff]
    have bound := receiver.isLt
    exact ⟨positive, .inl (by omega)⟩

/-- Six processes, with the size and the number of iterations that `main` sets. -/
def sixRanks : ServerArgs 6 where
  id := 0
  numIter := 2 * 1024 * 1024
  size := 32
  rkeys := fun _ => 7
  basePtrs := fun _ => 1048576
  sendBuffer := ⟨1048576, 192, ⟨1048576, 192, 7, 7, true, true⟩⟩

/-- Rank five of six would need a seed that is four modulo five. -/
theorem six_ranks_uncovered :
    ¬∀ receiver : Fin 6, 1 ≤ receiver.val → sixRanks.Reaches receiver := by
  intro covered
  have reached := covered ⟨5, by decide⟩ (by decide)
  rw [ServerArgs.reaches_iff] at reached
  exact absurd reached (by decide)

section Check

variable {args : ServerArgs nprocs} {calls : List (Call nprocs)} {receiver : Fin nprocs}

theorem mem_destinations :
    receiver ∈ destinations calls ↔ ∃ call, .post call ∈ calls ∧ call.dest = receiver := by
  rw [destinations, List.mem_filterMap]
  constructor
  · intro written
    obtain ⟨call, member, same⟩ := written
    cases call with
    | post call => exact ⟨call, member, Option.some.inj same⟩
    | zflush => cases same
    | zrecv => cases same
    | giveBack => cases same
  · intro written
    obtain ⟨call, member, same⟩ := written
    exact ⟨.post call, member, congrArg some same⟩

namespace ServerArgs

/-- The calls of all threads, in whichever order they come. -/
def Interleaves (args : ServerArgs nprocs) (calls : List (Call nprocs)) : Prop :=
  ∀ call, call ∈ calls ↔ ∃ id < numThreads, ∃ program,
    (args.thread id args.numIter).test1Server = .ok program ∧ call ∈ program

/-- A call of a thread. -/
def Sends (args : ServerArgs nprocs) (call : Call nprocs) : Prop :=
  ∃ dest, call ∈ args.writeTo dest

theorem Interleaves.mem_destinations_iff (interleaved : args.Interleaves calls) :
    receiver ∈ destinations calls ↔ ∃ id < numThreads, ∃ program,
      (args.thread id args.numIter).test1Server = .ok program ∧
        receiver ∈ destinations program := by
  rw [mem_destinations]
  constructor
  · intro written
    obtain ⟨call, member, same⟩ := written
    obtain ⟨id, small, program, ran, inside⟩ := (interleaved _).mp member
    exact ⟨id, small, program, ran, mem_destinations.mpr ⟨call, inside, same⟩⟩
  · intro written
    obtain ⟨id, small, program, ran, inside⟩ := written
    obtain ⟨call, member, same⟩ := mem_destinations.mp inside
    exact ⟨call, (interleaved _).mpr ⟨id, small, program, ran, member⟩, same⟩

/-- The order of the calls does not matter for whom they reach, and neither does their number
behind the first measured iteration. -/
theorem Interleaves.mem_iff_reaches (interleaved : args.Interleaves calls)
    (two : 2 ≤ nprocs) (enough : 1 ≤ args.numIter) :
    receiver ∈ destinations calls ↔ args.Reaches receiver := by
  rw [interleaved.mem_destinations_iff]
  constructor
  · intro written
    obtain ⟨id, small, program, ran, inside⟩ := written
    exact ⟨id, small, args.numIter, program, ran, inside⟩
  · intro reached
    obtain ⟨seed, member, rfl⟩ := (reaches_iff_seed two).mp reached
    exact exists_mem_of_seed two enough member

theorem Interleaves.sends (interleaved : args.Interleaves calls) (two : 2 ≤ nprocs) :
    ∀ call ∈ calls, args.Sends call := by
  intro call member
  obtain ⟨id, _, program, ran, inside⟩ := (interleaved call).mp member
  rw [test1Server_ok two] at ran
  cases ran
  obtain ⟨turn, _, sent⟩ := List.mem_flatMap.mp inside
  exact ⟨_, sent⟩

/-- The calls of the threads. -/
theorem Sends.cases {call : Call nprocs} (sent : args.Sends call) :
    (∃ dest : Fin nprocs, call = .post (.write args.sendBuffer (dest * args.size) args.size dest
      (args.rkeys dest) (args.basePtrs dest))) ∨ call = .zflush := by
  obtain ⟨dest, member⟩ := sent
  rcases List.mem_cons.mp member with write | flush
  · exact .inl ⟨dest, write⟩
  · exact .inr (List.mem_singleton.mp flush)

end ServerArgs

variable {buffers : Fin nprocs → ℕ → Int8} {size i : ℕ}

/-- The bytes for a rank are its number. -/
theorem sendByte_eq {rank : ℕ} (inside : i < size) :
    sendByte size (rank * size + i) = Int8.ofNat rank := by
  have positive : 0 < size := Nat.zero_lt_of_lt inside
  rw [sendByte, Nat.mul_comm, Nat.mul_add_div positive, Nat.div_eq_of_lt inside, Nat.add_zero]

theorem land_of_not_mem (unwritten : receiver ∉ destinations calls) :
    land size calls buffers receiver = buffers receiver := by
  induction calls generalizing buffers with
  | nil => rfl
  | cons call rest ih =>
      have skipped : receiver ∉ destinations rest := by
        intro written
        obtain ⟨later, member, same⟩ := mem_destinations.mp written
        exact unwritten (mem_destinations.mpr ⟨later, List.mem_cons_of_mem call member, same⟩)
      cases call with
      | post call =>
          have other : receiver ≠ call.dest := by
            intro same
            exact unwritten (mem_destinations.mpr ⟨call, List.mem_cons_self, same.symm⟩)
          cases call with
          | write => exact (ih skipped).trans (Function.update_of_ne other _ _)
          | zsend => exact ih skipped
          | read => exact ih skipped
      | zflush => exact ih skipped
      | zrecv => exact ih skipped
      | giveBack => exact ih skipped

/-- **Writes.** However often a receiver is written to, it ends up with the bytes of its rank. -/
theorem land_of_mem (sent : ∀ call ∈ calls, args.Sends call)
    (written : receiver ∈ destinations calls) (inside : i < args.size) :
    land args.size calls buffers receiver i = Int8.ofNat receiver := by
  induction calls generalizing buffers with
  | nil => cases written
  | cons call rest ih =>
      have sentRest (later : Call nprocs) (member : later ∈ rest) : args.Sends later :=
        sent later (List.mem_cons_of_mem call member)
      rcases (sent call List.mem_cons_self).cases with ⟨dest, rfl⟩ | rfl
      · by_cases again : receiver ∈ destinations rest
        · exact ih sentRest again
        · -- this write is the last one for the receiver
          have same : receiver = dest := (List.mem_cons.mp written).resolve_right again
          subst same
          rw [land, land_of_not_mem again, Function.update_self, if_pos inside, sendByte_eq inside]
      · exact ih sentRest written

/-- **The check.** A receiver that is reached finds its rank in every byte. -/
theorem reported_of_reaches (interleaved : args.Interleaves calls) (two : 2 ≤ nprocs)
    (enough : 1 ≤ args.numIter) (reached : args.Reaches receiver) :
    reported receiver args.size (land args.size calls buffers receiver) = [] := by
  have written := (interleaved.mem_iff_reaches two enough).mpr reached
  have small := (ServerArgs.reaches_iff.mp reached).2
  have residues := And.intro (Nat.mod_le 32 (nprocs - 1)) (Nat.mod_le 33 (nprocs - 1))
  rw [reported, List.filter_eq_nil_iff]
  intro i member
  rw [land_of_mem (interleaved.sends two) written (List.mem_range.mp member),
    Int8.toInt_ofNat_of_lt (by omega)]
  simp

/-- A receiver that is not reached checks what its buffer had at the start. -/
theorem reported_of_not_reaches (interleaved : args.Interleaves calls) (two : 2 ≤ nprocs)
    (enough : 1 ≤ args.numIter) (unreached : ¬args.Reaches receiver) :
    reported receiver args.size (land args.size calls buffers receiver) =
      reported receiver args.size (buffers receiver) := by
  have unwritten := mt (interleaved.mem_iff_reaches two enough).mp unreached
  rw [land_of_not_mem unwritten]

end Check

end Ympi.FanOut
