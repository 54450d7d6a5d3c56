import Mathlib.Logic.Function.Iterate
import Ympi.Messaging.CallRuns

/-! # The threads of the fan-out benchmark

Rank 0 runs four threads, each of which writes to one receiver after another. A thread chooses
them with a sequence of seeds that starts at its id. Each write takes the bytes for its receiver
out of the send buffer, and at the end each receiver compares what is in its buffer with its
rank.
-/

namespace Ympi.FanOut

open Messaging

/-- `num_threads`. -/
def numThreads : ℕ := 4

/-- `NEXT_SEED`. In C the operator `%` comes before `^`, which is the exclusive or. -/
def nextSeed (seed : UInt32) : UInt32 :=
  ((1103515245 * seed + 12345) % 2) ^^^ 32

inductive Fault where
  | divisionByZero
  deriving DecidableEq, Repr

variable {nprocs : ℕ}

/-- The variable `dest` of an iteration, if there are receivers. -/
def chooseDest (nprocs : ℕ) (seed : UInt32) : Except Fault (Fin nprocs) :=
  if two : 2 ≤ nprocs then
    .ok ⟨1 + seed.toNat % (nprocs - 1), by
      have small := Nat.mod_lt seed.toNat (show 0 < nprocs - 1 by omega)
      omega⟩
  else .error .divisionByZero

/-- `test1_server_args`, without what measures the time. -/
structure ServerArgs (nprocs : ℕ) where
  id : ℕ
  numIter : ℕ
  size : ℕ
  rkeys : Fin nprocs → ℕ
  basePtrs : Fin nprocs → ℕ
  sendBuffer : RdmaBuffer

namespace ServerArgs

variable (args : ServerArgs nprocs)

/-- The calls of an iteration. -/
def writeTo (dest : Fin nprocs) : List (Call nprocs) :=
  [.post (.write args.sendBuffer (dest * args.size) args.size dest (args.rkeys dest)
    (args.basePtrs dest)), .zflush]

/-- A loop of `test1_server` with `count` iterations: its calls, and the seed behind it. -/
def writeLoop : (count : ℕ) → UInt32 → Except Fault (List (Call nprocs) × UInt32)
  | 0, seed => .ok ([], seed)
  | count + 1, seed => do
      let dest ← chooseDest nprocs seed
      let (calls, last) ← writeLoop count (nextSeed seed)
      return (args.writeTo dest ++ calls, last)

/-- `test1_server`, with an iteration to warm up. -/
def test1Server : Except Fault (List (Call nprocs)) := do
  let (warmUp, seed) ← args.writeLoop 1 (UInt32.ofNat args.id)
  let (calls, _) ← args.writeLoop args.numIter seed
  return warmUp ++ calls

end ServerArgs

/-- The ranks that calls write to. -/
def destinations (calls : List (Call nprocs)) : List (Fin nprocs) :=
  calls.filterMap fun
    | .post call => some call.dest
    | _ => none

/-- A byte of the send buffer after the loops of `main`: it has `size` bytes for each rank. -/
def sendByte (size offset : ℕ) : Int8 :=
  Int8.ofNat (offset / size)

/-- The receive buffers after calls that write from the send buffer. -/
def land (size : ℕ) : List (Call nprocs) → (Fin nprocs → ℕ → Int8) → Fin nprocs → ℕ → Int8
  | .post (.write _ offset bytes dest _ _) :: rest, buffers =>
      land size rest (Function.update buffers dest fun i =>
        if i < bytes then sendByte size (offset + i) else buffers dest i)
  | _ :: rest, buffers => land size rest buffers
  | [], buffers => buffers

/-- The indices for which a receiver finds `val != rank`. -/
def reported (rank size : ℕ) (buffer : ℕ → Int8) : List ℕ :=
  (List.range size).filter fun i => (buffer i).toInt ≠ rank

section Destination

/-- What `chooseDest` gives if there are receivers. -/
def destOf (two : 2 ≤ nprocs) (seed : UInt32) : Fin nprocs :=
  ⟨1 + seed.toNat % (nprocs - 1), by
    have small := Nat.mod_lt seed.toNat (show 0 < nprocs - 1 by omega)
    omega⟩

theorem chooseDest_eq (two : 2 ≤ nprocs) (seed : UInt32) :
    chooseDest nprocs seed = .ok (destOf two seed) :=
  dif_pos two

end Destination

namespace ServerArgs

variable {args : ServerArgs nprocs} {count : ℕ}

/-- A loop goes through the iterates of `NEXT_SEED`. -/
theorem writeLoop_ok (two : 2 ≤ nprocs) (seed : UInt32) : args.writeLoop count seed =
    .ok ((List.range count).flatMap fun turn => args.writeTo (destOf two (nextSeed^[turn] seed)),
      nextSeed^[count] seed) := by
  induction count generalizing seed with
  | zero => rfl
  | succ count ih =>
      rw [writeLoop, chooseDest_eq two, List.range_succ_eq_map, List.flatMap_cons, List.flatMap_map]
      simp only [bind, Except.bind]
      rw [ih]
      rfl

/-- **The server.** A thread makes one more iteration than it is to measure. -/
theorem test1Server_ok (two : 2 ≤ nprocs) : args.test1Server =
    .ok ((List.range (1 + args.numIter)).flatMap fun turn =>
      args.writeTo (destOf two (nextSeed^[turn] (UInt32.ofNat args.id)))) := by
  rw [test1Server, writeLoop_ok two]
  simp only [bind, Except.bind]
  rw [writeLoop_ok two, List.range_add, List.flatMap_append, List.flatMap_map]
  simp only [← Function.iterate_add_apply, Nat.add_comm 1]
  rfl

end ServerArgs

end Ympi.FanOut
