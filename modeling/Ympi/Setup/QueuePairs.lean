import Ympi.Foundation.Loops
import Ympi.Foundation.Results
import Ympi.Messaging.Verbs
import Mathlib.Data.List.FinRange

/-! # Queue pairs of a process

`YMPID_Context_create` creates a queue pair for each peer that the process lists, stores
the peer in the lookup table under the number of the queue pair, and brings all queue pairs
into the state `INIT`.
-/

namespace Ympi.Setup

open Foundation Messaging

/-- The states of a queue pair that the setup goes through. -/
inductive QpState where
  | reset
  | init
  | rtr
  | rts
  deriving DecidableEq, Repr

/-- `ibv_qp` with the attributes that decide which queue pair it is connected to. -/
structure QueuePair where
  qpNum : UInt32
  state : QpState
  destQpNum : UInt32
  dlid : UInt16
  rqPsn : UInt32
  sqPsn : UInt32
  deriving DecidableEq

/-- A queue pair as it is created. -/
def QueuePair.create (qpNum : UInt32) : QueuePair where
  qpNum := qpNum
  state := .reset
  destQpNum := 0
  dlid := 0
  rqPsn := 0
  sqPsn := 0

/-- Why `YMPID_Init` does not return 0. -/
inductive Failure where
  /-- An assertion ends the process. -/
  | assertion
  | returns (status : Int)
  /-- The process waits in a collective for another one that has failed. -/
  | waits
  deriving DecidableEq, Repr

/-- A process with its argument `target_rank_list` and what the verbs layer and the random
generator return to it. Queue pair numbers have 24 bits. -/
structure Process (nprocs : ℕ) where
  targetRankList : Option (Fin nprocs → Int32)
  /-- All verbs calls before the creation of the queue pairs succeed. -/
  opened : Bool
  /-- The number of the queue pair for a peer, if its creation succeeds. -/
  qpNum : Fin nprocs → Option UInt32
  /-- The queue pair for a peer can be modified to `INIT`. -/
  toInit : Fin nprocs → Bool
  /-- `YMPID_Return` posts all receive buffers. -/
  receivesPosted : Bool
  lid : UInt16
  lrand48 : Fin nprocs → UInt32
  toRtr : Fin nprocs → Bool
  toRts : Fin nprocs → Bool
  qpNum_lt : ∀ peer number, qpNum peer = some number → number.toNat < 2 ^ 24

namespace Process

variable {nprocs : ℕ} (process : Process nprocs)

/-- `!target_rank_list || target_rank_list[i]` -/
def lists (peer : Fin nprocs) : Bool :=
  match process.targetRankList with
  | none => true
  | some list => list peer ≠ 0

/-- A turn of the loop that creates the queue pairs, with the lookup table `qp_rank`. -/
def createQp (peer : Fin nprocs) (qpRank : ℕ → Int) (_ : Option QueuePair) :
    Except Failure ((ℕ → Int) × Option QueuePair) :=
  if process.lists peer then
    match process.qpNum peer with
    | none => .error (.returns (-1))
    | some number =>
        if qpRank (number.toNat % qpnHashSize) = -1 then
          .ok (Function.update qpRank (number.toNat % qpnHashSize) (peer.val : Int),
            some (QueuePair.create number))
        else .error .assertion
  else .ok (qpRank, none)

/-- A turn of the loop that modifies the queue pairs to `INIT`. -/
def initQp (peer : Fin nprocs) (_ : Unit) : Option QueuePair →
    Except Failure (Unit × Option QueuePair)
  | none => .ok ((), none)
  | some qp =>
      if process.toInit peer then .ok ((), some { qp with state := .init })
      else .error (.returns (-1))

/-- `YMPID_Context_create`, which returns `NULL` if a verbs call fails; `YMPID_Init` returns -1
then. The result is `qp_list` and `qp_rank`. -/
def contextCreate : Except Failure ((Fin nprocs → Option QueuePair) × (ℕ → Int)) :=
  if process.opened then do
    let (qpRank, qpList) ← forEach process.createQp (List.finRange nprocs) (fun _ => -1)
      fun _ => none
    let (_, qpList) ← forEach process.initQp (List.finRange nprocs) () qpList
    return (qpList, qpRank)
  else .error (.returns (-1))

/-- The loop of `YMPID_Context_create` that creates the queue pairs, with the tables `qp_rank`
and `qp_list` that it fills. -/
def createQps : Except Failure ((ℕ → Int) × (Fin nprocs → Option QueuePair)) :=
  forEach process.createQp (List.finRange nprocs) (fun _ => -1) fun _ => none

variable {process}

theorem createQp_ok {peer : Fin nprocs} {qpRank after : ℕ → Int} {old new : Option QueuePair}
    (done : process.createQp peer qpRank old = .ok (after, new)) :
    (process.lists peer = false ∧ new = none) ∨ process.lists peer = true ∧
      ∃ number, process.qpNum peer = some number ∧ new = some (QueuePair.create number) := by
  rw [createQp] at done
  split at done
  next listed =>
    refine Or.inr ⟨listed, ?_⟩
    split at done
    next => cases done
    next number assigned =>
      split at done
      next =>
        cases done
        exact ⟨number, assigned, rfl⟩
      next => cases done
  next unlisted =>
    cases done
    exact Or.inl ⟨Bool.eq_false_iff.mpr unlisted, rfl⟩

theorem initQp_ok {peer : Fin nprocs} {old new : Option QueuePair}
    (done : process.initQp peer () old = .ok ((), new)) :
    new = old.map fun qp => { qp with state := .init } := by
  cases old with
  | none =>
      cases done
      rfl
  | some qp =>
      rw [initQp] at done
      split at done
      · cases done
        rfl
      · cases done

theorem initQp_error {peer : Fin nprocs} {old : Option QueuePair} {failure : Failure}
    (failed : process.initQp peer () old = .error failure) : failure = .returns (-1) := by
  cases old with
  | none => cases failed
  | some qp =>
      rw [initQp] at failed
      split at failed
      · cases failed
      · cases failed
        rfl

theorem contextCreate_eq : process.contextCreate =
    if process.opened then do
      let (qpRank, qpList) ← process.createQps
      let (_, qpList) ← forEach process.initQp (List.finRange nprocs) () qpList
      return (qpList, qpRank)
    else .error (.returns (-1)) := rfl

/-- Both loops of a creation that returns a context have completed, and the second one changed
only states. -/
theorem contextCreate_eq_ok {qpList : Fin nprocs → Option QueuePair} {qpRank : ℕ → Int}
    (done : process.contextCreate = .ok (qpList, qpRank)) :
    ∃ created, process.createQps = .ok (qpRank, created) ∧
      ∀ peer, qpList peer = (created peer).map fun qp => { qp with state := .init } := by
  rw [contextCreate_eq] at done
  split at done
  next =>
    obtain ⟨⟨stored, created⟩, looped, done⟩ := exists_of_bind_ok done
    obtain ⟨second, modified, done⟩ := exists_of_bind_ok done
    cases done
    refine ⟨created, looped, fun peer => ?_⟩
    obtain ⟨_, _, inits⟩ := (forEach_ok modified (List.nodup_finRange _)).1 peer
      (List.mem_finRange peer)
    exact initQp_ok inits
  next => cases done

/-- **Creation.** A created context has queue pairs exactly for the peers listed, with the
numbers that the verbs layer gave them. -/
theorem contextCreate_ok {qpList : Fin nprocs → Option QueuePair} {qpRank : ℕ → Int}
    (done : process.contextCreate = .ok (qpList, qpRank)) (peer : Fin nprocs) :
    (process.lists peer = false ∧ qpList peer = none) ∨ process.lists peer = true ∧
      ∃ number, process.qpNum peer = some number ∧
        qpList peer = some { QueuePair.create number with state := .init } := by
  obtain ⟨created, looped, modified⟩ := contextCreate_eq_ok done
  obtain ⟨_, _, creates⟩ := (forEach_ok looped (List.nodup_finRange _)).1 peer
    (List.mem_finRange peer)
  rw [modified peer]
  rcases createQp_ok creates with ⟨unlisted, none⟩ | ⟨listed, number, assigned, new⟩
  · exact Or.inl ⟨unlisted, by rw [none]; rfl⟩
  · exact Or.inr ⟨listed, number, assigned, by rw [new]; rfl⟩

end Process

end Ympi.Setup
