import Mathlib.Algebra.BigOperators.Group.Finset.Basic
import Ympi.IbAllPutAll.WindowRuns

/-! # The iterations of `iballputall`

In each iteration of its main loop a rank posts 1024 messages to the other ranks in turn. Then it
polls its completion queue until all of its sends have completed, enters a barrier, and goes
on polling until the barrier is complete. What has come in is flushed, and the next iteration
begins. A state is that of all ranks with their completion queues and receive queues, and the
messages between them, so every interleaving of the ranks and the network is a run.
-/

namespace Ympi.IbAllPutAll

open Foundation

variable {nprocs : ℕ}

/-- A message, by the iteration of its source and the turn of `pp_post_send_1024`. -/
structure Message (nprocs : ℕ) where
  source : Fin nprocs
  iteration : ℕ
  turn : ℕ
  deriving DecidableEq, Repr

/-- A successful completion: one of a send, or one of a receive with the `id` of its work request
and the message that has come in. -/
inductive Completion (nprocs : ℕ) where
  | send
  | recv (id : ℕ) (message : Message nprocs)
  deriving DecidableEq, Repr

namespace Completion

def message : Completion nprocs → Option (Message nprocs)
  | send => none
  | recv _ message => some message

def id : Completion nprocs → Option ℕ
  | send => none
  | recv id _ => some id

def isSend : Completion nprocs → Bool
  | send => true
  | recv _ _ => false

end Completion

/-- The messages of completions. -/
def received (completions : List (Completion nprocs)) : List (Message nprocs) :=
  completions.filterMap Completion.message

/-- The ids of the receives among completions. -/
def receivedIds (completions : List (Completion nprocs)) : List ℕ :=
  completions.filterMap Completion.id

/-- The number of sends among completions. -/
def sends (completions : List (Completion nprocs)) : ℕ :=
  completions.countP Completion.isSend

/-- The variables of the wait loop: `num_sent`, `scnt`, `rcnt`, and whether `b_req` is a
request. -/
structure Progress where
  numSent : ℕ
  scnt : ℕ
  rcnt : ℕ
  bReq : Bool
  deriving DecidableEq, Repr

/-- Where a rank is in an iteration. -/
inductive Stage (nprocs : ℕ) where
  /-- Before turn `i` of `pp_post_send_1024`. -/
  | posting (i scount : ℕ)
  /-- Before `ibv_poll_cq`. -/
  | polling (progress : Progress)
  /-- In the loop over `wc`, with the completions that are left. Without any it comes to
  `MPI_Test`. -/
  | handling (progress : Progress) (wc : List (Completion nprocs))
  /-- It has left the wait loop. -/
  | flushing

/-- A rank with its queues, and the messages that it has called `pp_on_recv` for. -/
structure Rank (nprocs : ℕ) where
  iteration : ℕ
  stage : Stage nprocs
  ctx : PingpongContext
  srq : List RecvWr
  cq : List (Completion nprocs)
  handled : List (Message nprocs)

/-- The destination of turn `i` of `pp_post_send_1024`. -/
def dest (rank : Fin nprocs) (i : ℕ) : Fin nprocs :=
  ⟨(rank.val + i) % nprocs, Nat.mod_lt _ (Nat.zero_lt_of_lt rank.isLt)⟩

/-- What a process does by itself. -/
inductive Move where
  /-- A turn whose destination is the rank itself. -/
  | skip
  | posted
  | poll
  | handle (post : PostResult)
  /-- `MPI_Test` is not called, or the barrier is not complete. -/
  | again
  /-- `MPI_Test` finds the barrier complete. -/
  | leave
  | flush (post : PostResult)

namespace Rank

/-- A call of the main loop, of `total` iterations. Return values of `pp_on_recv` and
`pp_on_flush` are not used, and a rank at which a call fails stays where it is. -/
inductive Step (total : ℕ) (rank : Fin nprocs) : Rank nprocs → Move → Rank nprocs → Prop where
  | skip {before : Rank nprocs} {i scount : ℕ} : before.iteration < total →
      before.stage = .posting i scount → i < 1024 → dest rank i = rank →
      Step total rank before .skip { before with stage := .posting (i + 1) scount }
  | posted {before : Rank nprocs} {scount : ℕ} : before.stage = .posting 1024 scount →
      Step total rank before .posted { before with stage := .polling ⟨scount, 0, 0, false⟩ }
  | poll {before : Rank nprocs} {progress : Progress} : before.stage = .polling progress →
      Step total rank before .poll { before with
        stage := .handling progress (before.cq.take 64)
        cq := before.cq.drop 64 }
  | send {before : Rank nprocs} {progress : Progress} {wc : List (Completion nprocs)}
      {post : PostResult} : before.stage = .handling progress (.send :: wc) →
      Step total rank before (.handle post) { before with
        stage := .handling { progress with
          scnt := progress.scnt + 1
          bReq := progress.bReq || progress.scnt + 1 = progress.numSent } wc }
  | recv {before : Rank nprocs} {progress : Progress} {id : ℕ} {message : Message nprocs}
      {wc : List (Completion nprocs)} {post : PostResult} {outcome : Outcome} :
      before.stage = .handling progress (.recv id message :: wc) →
      ppOnRecv before.ctx id post = .ok outcome →
      Step total rank before (.handle post) { before with
        stage := .handling { progress with rcnt := progress.rcnt + 1 } wc
        ctx := outcome.ctx
        srq := before.srq ++ outcome.posted
        handled := before.handled ++ [message] }
  | again {before : Rank nprocs} {progress : Progress} : before.stage = .handling progress [] →
      Step total rank before .again { before with stage := .polling progress }
  | leave {before : Rank nprocs} {progress : Progress} : before.stage = .handling progress [] →
      progress.bReq = true → Step total rank before .leave { before with stage := .flushing }
  | flush {before : Rank nprocs} {post : PostResult} {outcome : Outcome} :
      before.stage = .flushing → ppOnFlush before.ctx post = .ok outcome →
      Step total rank before (.flush post) { before with
        iteration := before.iteration + 1
        stage := .posting 0 0
        ctx := outcome.ctx
        srq := before.srq ++ outcome.posted }

/-- The number of calls of `MPI_Ibarrier` so far. -/
def barriers (rank : Rank nprocs) : ℕ :=
  match rank.stage with
  | .posting _ _ => rank.iteration
  | .polling progress | .handling progress _ =>
      if progress.bReq then rank.iteration + 1 else rank.iteration
  | .flushing => rank.iteration + 1

/-- The number of iterations whose wait loop the rank has left. -/
def left (rank : Rank nprocs) : ℕ :=
  match rank.stage with
  | .flushing => rank.iteration + 1
  | _ => rank.iteration

end Rank

/-- All ranks, the messages on their way from one to another, and how many messages of each have
been delivered whose sends are still to complete. -/
structure State (nprocs : ℕ) where
  ranks : Fin nprocs → Rank nprocs
  flight : Fin nprocs → Fin nprocs → List (Message nprocs)
  unacked : Fin nprocs → ℕ

inductive Label (nprocs : ℕ) where
  | move (rank : Fin nprocs) (move : Move)
  | post (rank : Fin nprocs)
  | deliver (source dest : Fin nprocs)
  | complete (rank : Fin nprocs)

/-- `family` with `value` for a pair of ranks. -/
def updatePair {β : Type} (family : Fin nprocs → Fin nprocs → β) (source dest : Fin nprocs)
    (value : β) : Fin nprocs → Fin nprocs → β :=
  Function.update family source (Function.update (family source) dest value)

/-- A rank makes a call or posts a message, a message is delivered to the first work request of
the receive queue, or a send completes whose message has been delivered. A barrier is
complete only when all ranks have entered it. -/
inductive Step (total : ℕ) : State nprocs → Label nprocs → State nprocs → Prop where
  | move {state : State nprocs} {rank : Fin nprocs} {move : Move} {after : Rank nprocs} :
      Rank.Step total rank (state.ranks rank) move after →
      (move = .leave → ∀ other, (state.ranks rank).iteration < (state.ranks other).barriers) →
      Step total state (.move rank move) { state with
        ranks := Function.update state.ranks rank after }
  | post {state : State nprocs} {rank : Fin nprocs} {i scount : ℕ} :
      (state.ranks rank).iteration < total →
      (state.ranks rank).stage = .posting i scount → i < 1024 → dest rank i ≠ rank →
      Step total state (.post rank) { state with
        ranks := Function.update state.ranks rank { state.ranks rank with
          stage := .posting (i + 1) (scount + 1) }
        flight := updatePair state.flight rank (dest rank i)
          (state.flight rank (dest rank i) ++ [⟨rank, (state.ranks rank).iteration, i⟩]) }
  | deliver {state : State nprocs} {source dest : Fin nprocs} {message : Message nprocs}
      {rest : List (Message nprocs)} {wr : RecvWr} {srq : List RecvWr} :
      state.flight source dest = message :: rest → (state.ranks dest).srq = wr :: srq →
      Step total state (.deliver source dest) {
        ranks := Function.update state.ranks dest { state.ranks dest with
          srq := srq
          cq := (state.ranks dest).cq ++ [.recv wr.id message] }
        flight := updatePair state.flight source dest rest
        unacked := Function.update state.unacked source (state.unacked source + 1) }
  | complete {state : State nprocs} {rank : Fin nprocs} {count : ℕ} :
      state.unacked rank = count + 1 →
      Step total state (.complete rank) { state with
        ranks := Function.update state.ranks rank { state.ranks rank with
          cq := (state.ranks rank).cq ++ [.send] }
        unacked := Function.update state.unacked rank count }

/-- All ranks come to the main loop with nothing on its way. -/
structure State.Initial (state : State nprocs) : Prop where
  window : ∀ rank, ∃ earlier, queueSystem.Reaches earlier
    ⟨(state.ranks rank).ctx, [], (state.ranks rank).srq⟩
  iteration : ∀ rank, (state.ranks rank).iteration = 0
  stage : ∀ rank, (state.ranks rank).stage = .posting 0 0
  cq : ∀ rank, (state.ranks rank).cq = []
  handled : ∀ rank, (state.ranks rank).handled = []
  flight : ∀ source dest, state.flight source dest = []
  unacked : ∀ rank, state.unacked rank = 0

/-- The main loops of `nprocs` ranks, of `total` iterations. -/
def system (nprocs total : ℕ) : LabelledSystem (State nprocs) (Label nprocs) where
  Initial := State.Initial
  Step := Step total

end Ympi.IbAllPutAll
