import Mathlib.Order.Interval.Finset.Nat
import Ympi.Messaging.CallRuns
import Ympi.Messaging.Runs

/-! # The all-put-all benchmark

In groups of 128 ranks each rank sends a message to every other one, flushes, takes a
message from every other one and gives the buffers back, and does this again and again. A
state is a cluster and a thread for each rank. The library calls of `do_allputall` are
steps of the cluster, so every interaction with the HCA may interleave with everything
that the other ranks do, and nothing but the messages keeps the ranks together.
-/

namespace Ympi.AllPutAll

open Foundation Messaging

/-- `ALLPUTALL_NUMPROCS` -/
def allputallNumprocs : ℕ := 128

/-- The variable `bytes` of `main`, the largest message. -/
def maxBytes : ℕ := 4 * 1024

/-- The variable `q` of `do_allputall` in turn `i` of a loop. -/
def partner (rank i : ℕ) : ℕ :=
  let groupBase := rank / allputallNumprocs * allputallNumprocs
  let groupOff := rank % allputallNumprocs
  groupBase + (groupOff + i) % allputallNumprocs

section Partner

variable {rank i j : ℕ}

/-- A group takes part in the benchmark as a whole. -/
theorem partner_lt_iff {np : ℕ} (whole : allputallNumprocs ∣ np) (rank i : ℕ) :
    partner rank i < np ↔ rank < np := by
  obtain ⟨groups, rfl⟩ := whole
  simp only [partner, allputallNumprocs]
  omega

theorem partner_ne (pos : 1 ≤ i) (bound : i < allputallNumprocs) : partner rank i ≠ rank := by
  simp only [partner, allputallNumprocs] at bound ⊢
  omega

/-- The partner meets the rank in the turn that is as far from the end of its loop. -/
theorem partner_partner (bound : i < allputallNumprocs) :
    partner (partner rank i) (allputallNumprocs - i) = rank := by
  simp only [partner, allputallNumprocs] at bound ⊢
  omega

theorem partner_injective (bound : i < allputallNumprocs) (bound' : j < allputallNumprocs)
    (same : partner rank i = partner rank j) : i = j := by
  simp only [partner, allputallNumprocs] at bound bound' same
  omega

end Partner

variable {nprocs : ℕ}

/-- The arguments of `do_allputall`, the send buffers of the processes and the table
`local_rank_to_global_rank`. -/
structure Setting (nprocs : ℕ) where
  np : ℕ
  nb : ℕ
  localRankToGlobalRank : Equiv.Perm (Fin nprocs)
  sendBuffer : Fin nprocs → RdmaBuffer
  np_le : np ≤ nprocs
  np_dvd : allputallNumprocs ∣ np
  nb_le : nb ≤ maxBytes
  sendBuffer_bytes : ∀ rank, (sendBuffer rank).bytes = allputallNumprocs * maxBytes

/-- The library call that `do_allputall` is in or comes to next. -/
inductive Stage where
  /-- `YMPI_Zsend` in turn `i` of the first loop. -/
  | sending (i : ℕ)
  | flushing
  /-- `YMPI_Zrecv` in turn `i` of the second loop. -/
  | receiving (i : ℕ)
  | returning
  deriving DecidableEq, Repr

/-- Where a rank is, and how many calls of `do_allputall` it has completed. -/
structure Thread where
  iteration : ℕ
  stage : Stage
  deriving DecidableEq, Repr

namespace Thread

/-- A rank before its first call of `do_allputall`. -/
def start : Thread where
  iteration := 0
  stage := .sending 1

/-- The thread after the library call it is in has returned. -/
def next (thread : Thread) : Thread :=
  match thread.stage with
  | .sending i =>
      { thread with stage := if i + 1 < allputallNumprocs then .sending (i + 1) else .flushing }
  | .flushing => { thread with stage := .receiving 1 }
  | .receiving i =>
      { thread with stage := if i + 1 < allputallNumprocs then .receiving (i + 1) else .returning }
  | .returning => { iteration := thread.iteration + 1, stage := .sending 1 }

/-- The thread after its process has come to `pc`. -/
def settle (thread : Thread) : Pc nprocs → Thread
  | .idle _ => thread.next
  | _ => thread

end Thread

namespace Setting

variable (setting : Setting nprocs)

/-- The rank of a process in `shuffled_comm_world`. -/
def localRank (rank : Fin nprocs) : ℕ :=
  setting.localRankToGlobalRank.symm rank

/-- `local_rank_to_global_rank[q]` in turn `i`, unless `assert(q < np)` fails. -/
def peer (rank : Fin nprocs) (i : ℕ) : Option (Fin nprocs) :=
  if inside : partner (setting.localRank rank) i < setting.np then
    some (setting.localRankToGlobalRank ⟨_, inside.trans_le setting.np_le⟩)
  else none

/-- The ranks that a rank exchanges messages with. -/
def peers (rank : Fin nprocs) : Finset (Fin nprocs) :=
  (Finset.Ico 1 allputallNumprocs).biUnion fun i => (setting.peer rank i).toFinset

/-- The library call of `do_allputall` that the thread of `rank` is at; a rank from `np` on
makes none. -/
def call (rank : Fin nprocs) (thread : Thread) : Option (Call nprocs) :=
  if setting.localRank rank < setting.np then
    match thread.stage with
    | .sending i => (setting.peer rank i).map fun q =>
        .post (.zsend (setting.sendBuffer rank) (i * setting.nb) setting.nb q)
    | .flushing => some .zflush
    | .receiving i => (setting.peer rank i).map .zrecv
    | .returning => some .giveBack
  else none

/-- What the process of `rank` may do next: between its library calls it enters the next one.
`ibv_post_srq_recv` fails only when the SRQ is full. -/
structure Follows (rank : Fin nprocs) (thread : Thread) (node : Node nprocs)
    (action : Action nprocs) : Prop where
  enters : ∀ ret, node.pc = .idle ret →
    ∃ call, setting.call rank thread = some call ∧ call.Starts action
  posts : ∀ wr, action = .repost wr false → maxSrqWr ≤ node.srq.length

end Setting

/-- The step is not one of a process. -/
def isHardware : Label nprocs → Bool
  | .act _ action => !action.isProcess
  | _ => true

/-- The cluster and where each rank is. -/
structure State (nprocs : ℕ) where
  cluster : Cluster nprocs
  threads : Fin nprocs → Thread

inductive Step (setting : Setting nprocs) : State nprocs → Label nprocs → State nprocs → Prop where
  | process {state : State nprocs} {rank : Fin nprocs} {action : Action nprocs}
      {cluster : Cluster nprocs} :
      action.isProcess = true →
      setting.Follows rank (state.threads rank) (state.cluster rank) action →
      Cluster.Step state.cluster (.act rank action) cluster →
        Step setting state (.act rank action) {
          cluster := cluster
          threads := Function.update state.threads rank
            ((state.threads rank).settle (cluster rank).pc) }
  | hardware {state : State nprocs} {label : Label nprocs} {cluster : Cluster nprocs} :
      isHardware label = true → Cluster.Step state.cluster label cluster →
        Step setting state label { state with cluster := cluster }

/-- All ranks have returned from `YMPI_Init_ranklist`, connected to their partners. -/
structure Initial (setting : Setting nprocs) (state : State nprocs) : Prop where
  initialized : ∃ setup, (Cluster.system nprocs).Reaches setup state.cluster ∧
    ∀ label ∈ setup, label.isReturn = true
  started : ∀ rank, (state.cluster rank).Started
  connected : ∀ rank, ∀ peer ∈ setting.peers rank, (state.cluster rank).ctx.qps.qpList peer ≠ none
  threads : ∀ rank, state.threads rank = .start

/-- The transition system of the ranks that run the benchmark. -/
def system (setting : Setting nprocs) : LabelledSystem (State nprocs) (Label nprocs) where
  Initial := Initial setting
  Step := Step setting

namespace Setting

variable {setting : Setting nprocs} {rank other : Fin nprocs} {i j : ℕ}

theorem peer_eq_some : setting.peer rank i = some other ↔
    partner (setting.localRank rank) i < setting.np ∧
      setting.localRank other = partner (setting.localRank rank) i := by
  rw [peer]
  split
  next inside =>
    rw [Option.some.injEq, ← Equiv.eq_symm_apply, Fin.ext_iff]
    exact ⟨fun same => ⟨inside, same.symm⟩, fun both => both.2.symm⟩
  next outside =>
    refine ⟨?_, fun both => absurd both.1 outside⟩
    intro found
    cases found

/-- The message of turn `i` lies in the send buffer. -/
theorem send_inBounds (rank : Fin nprocs) (bound : i < allputallNumprocs) :
    Context.inBounds (setting.sendBuffer rank) (i * setting.nb) setting.nb := by
  rw [Context.inBounds, setting.sendBuffer_bytes, ← Nat.succ_mul]
  exact (Nat.mod_le _ _).trans (Nat.mul_le_mul bound setting.nb_le)

theorem peer_ne (pos : 1 ≤ i) (bound : i < allputallNumprocs)
    (found : setting.peer rank i = some other) : other ≠ rank := by
  rintro rfl
  exact partner_ne pos bound (peer_eq_some.mp found).2.symm

/-- Two ranks are peers of each other. -/
theorem peer_symmetric (bound : i < allputallNumprocs) (found : setting.peer rank i = some other) :
    setting.peer other (allputallNumprocs - i) = some rank := by
  obtain ⟨inside, meets⟩ := peer_eq_some.mp found
  have back : partner (setting.localRank other) (allputallNumprocs - i) =
      setting.localRank rank := by
    rw [meets]
    exact partner_partner bound
  refine peer_eq_some.mpr ⟨?_, back.symm⟩
  rw [back]
  exact (partner_lt_iff setting.np_dvd _ _).mp inside

theorem peer_injective (bound : i < allputallNumprocs) (bound' : j < allputallNumprocs)
    (found : setting.peer rank i = some other) (found' : setting.peer rank j = some other) :
    i = j :=
  partner_injective bound bound'
    ((peer_eq_some.mp found).2.symm.trans (peer_eq_some.mp found').2)

theorem mem_peers : other ∈ setting.peers rank ↔
    ∃ i, (1 ≤ i ∧ i < allputallNumprocs) ∧ setting.peer rank i = some other := by
  simp only [peers, Finset.mem_biUnion, Finset.mem_Ico, Option.mem_toFinset, Option.mem_def]

/-- A rank has at most one peer in each turn. -/
theorem card_peers_le (setting : Setting nprocs) (rank : Fin nprocs) :
    (setting.peers rank).card ≤ 127 := by
  have single : ∀ i ∈ Finset.Ico 1 allputallNumprocs,
      (setting.peer rank i).toFinset.card ≤ 1 := by
    intro i _
    cases setting.peer rank i with
    | none => exact Nat.zero_le 1
    | some q => exact le_rfl
  have counted := Finset.card_biUnion_le_card_mul _ _ 1 single
  rw [Nat.card_Ico, mul_one] at counted
  exact counted

end Setting

end Ympi.AllPutAll
