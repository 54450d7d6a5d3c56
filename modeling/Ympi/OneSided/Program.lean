import Ympi.Clients.Soundness
import Ympi.Foundation.Copies
import Ympi.Messaging.SendQueueBound

/-! # One-sided programs

A program in which one rank, the issuer, writes to the memory of another one and reads from it by
`YMPI_Write`, `YMPI_Read` and `YMPI_Zflush`. The process of the target makes no call meanwhile; it
may look at its memory at any time. The registrations of the target cover all requests, and the
issuer leaves the bytes of a request alone until it has flushed.

No request waits for an earlier read: the library never sets `IBV_SEND_FENCE`. So a read is three
steps here. Its request is sent when its turn comes, the target answers it at some later time, and
the answers come back in order. Meanwhile the requests that were posted after it go on.
-/

namespace Ympi.OneSided

open LinkedList Foundation Messaging Clients

variable {nprocs : ℕ}

/-- A call of the issuer. -/
inductive Access where
  | write (localSrc : RdmaBuffer) (offset bytes rkey destPtr : ℕ)
  | read (localDst : RdmaBuffer) (offset bytes rkey srcPtr : ℕ)
  | flush
  deriving DecidableEq, Repr

namespace Access

/-- The call of the messaging library. -/
def call (target : Fin nprocs) : Access → Call nprocs
  | .write localSrc offset bytes rkey destPtr =>
      .post (.write localSrc offset bytes target rkey destPtr)
  | .read localDst offset bytes rkey srcPtr =>
      .post (.read localDst offset bytes target rkey srcPtr)
  | .flush => .zflush

/-- The copy that a call asks for. -/
def copies : Access → List Copy
  | .write localSrc offset bytes _ destPtr => [.put (localSrc.buf + offset) destPtr bytes]
  | .read localDst offset bytes _ srcPtr => [.get (localDst.buf + offset) srcPtr bytes]
  | .flush => []

/-- A request lies in its buffer and in 64-bit addresses, its length is passed on unchanged, and
the registrations of the target permit it. -/
def Fits (rights : List Mr) : Access → Prop
  | .write localSrc offset bytes rkey destPtr =>
      Context.inBounds localSrc offset bytes ∧ localSrc.buf + offset < 2 ^ 64 ∧ bytes < 2 ^ 32 ∧
        permitsWrite rights rkey destPtr bytes
  | .read localDst offset bytes rkey srcPtr =>
      Context.inBounds localDst offset bytes ∧ localDst.buf + offset < 2 ^ 64 ∧ bytes < 2 ^ 32 ∧
        permitsRead rights rkey srcPtr bytes
  | .flush => True

/-- The copies that have been asked for since the last flush. -/
def unflushed (accesses : List Access) : List Copy :=
  accesses.foldl (fun earlier access =>
    match access with
    | .flush => []
    | other => earlier ++ other.copies) []

/-- A call uses no bytes of the issuer or of the target that a request in the other direction may
still use. -/
def Careful (accesses : List Access) : Prop :=
  ∀ front access back, accesses = front ++ access :: back →
    ∀ copy ∈ access.copies, ∀ earlier ∈ unflushed front, copy.Respects earlier

theorem unflushed_flush (accesses : List Access) : unflushed (accesses ++ [.flush]) = [] := by
  rw [unflushed, List.foldl_append, List.foldl_cons, List.foldl_nil]

theorem unflushed_append {access : Access} (accesses : List Access) (other : access ≠ .flush) :
    unflushed (accesses ++ [access]) = unflushed accesses ++ access.copies := by
  rw [unflushed, List.foldl_append, List.foldl_cons, List.foldl_nil]
  cases access with
  | write | read => rfl
  | flush => exact absurd rfl other

/-- What has been asked for since the last flush is a part of what has been asked for. -/
theorem unflushed_sublist (accesses : List Access) :
    (unflushed accesses).Sublist (accesses.flatMap copies) := by
  induction accesses using List.reverseRecOn with
  | nil => exact .refl _
  | append_singleton front access ih =>
      by_cases flush : access = .flush
      · subst flush
        rw [unflushed_flush]
        exact List.nil_sublist _
      · rw [unflushed_append _ flush, List.flatMap_append, List.flatMap_singleton]
        exact ih.append_right _

/-- Calls whose copies respect the earlier ones need no flush between them. -/
theorem careful_of_pairwise {accesses : List Access}
    (respects : (accesses.flatMap copies).Pairwise fun earlier copy => copy.Respects earlier) :
    Careful accesses := by
  rintro front access back rfl copy own earlier listed
  rw [List.flatMap_append, List.flatMap_cons, List.pairwise_append] at respects
  exact respects.2.2 earlier ((unflushed_sublist front).subset listed) copy
    (List.mem_append_left _ own)

/-- Calls of one direction need no flush between them. -/
theorem careful_of_isPut {accesses : List Access} {side : Bool}
    (all : ∀ access ∈ accesses, ∀ copy ∈ access.copies, copy.isPut = side) : Careful accesses := by
  apply careful_of_pairwise
  apply List.pairwise_of_forall_mem_list
  intro earlier before copy member
  obtain ⟨access, listed, own⟩ := List.mem_flatMap.mp before
  obtain ⟨other, listed', own'⟩ := List.mem_flatMap.mp member
  exact Copy.respects_of_isPut_eq ((all other listed' copy own').trans
    (all access listed earlier own).symm)

/-- The action with which the process enters the call, or ends at its assertions. -/
inductive Begins (target : Fin nprocs) (node : Node nprocs) (access : Access) :
    Action nprocs → Prop where
  | starts {action : Action nprocs} :
      (access.call target).Starts action → Begins target node access action
  | abort {call : PostCall nprocs} {outcome : PostOutcome} {halt : Halt} :
      access.call target = .post call → call.perform node.ctx outcome = .error halt →
        Begins target node access (.halt halt)

end Access

/-- The calls of the issuer, and what the target has registered. -/
structure Program (nprocs : ℕ) where
  issuer : Fin nprocs
  target : Fin nprocs
  distinct : issuer ≠ target
  rights : List Mr
  accesses : List Access
  fits : ∀ access ∈ accesses, access.Fits rights
  careful : Access.Careful accesses

/-- A read whose request has been sent, with the answer of the target if there is one. -/
structure Reading where
  posted : Posted
  answer : Option (List UInt8)

/-- The cluster, the reads whose bytes are not in place yet, oldest first, and the calls that the
issuer has still to make. -/
structure State (nprocs : ℕ) where
  cluster : Cluster nprocs
  reads : List Reading
  todo : List Access

/-- What happens in a step. -/
inductive Event (nprocs : ℕ) where
  | process (action : Action nprocs)
  /-- A step of the network that is not one of the following, or a completion. -/
  | hardware (label : Label nprocs)
  /-- The request of a read is sent. -/
  | ask (posted : Posted)
  /-- The target answers a read with the bytes that it has. -/
  | answer (posted : Posted) (bytes : List UInt8)
  /-- The bytes of a read are put in place. -/
  | bring (posted : Posted) (bytes : List UInt8)

/-- No read takes effect or completes. -/
def Unread : Label nprocs → Prop
  | .act _ (.complete _ executed _) => executed.posted.wr.opcode ≠ .rdmaRead
  | .rdmaRead _ _ _ done _ => done = false
  | _ => True

/-- The request is a read. -/
def isRead (executed : Executed) : Bool :=
  executed.posted.wr.opcode = .rdmaRead

/-- What is left to do after a step of the issuer. -/
def advance (todo : List Access) (action : Action nprocs) : List Access :=
  match action with
  | .post .. => todo.tail
  | .zflush => todo.tail
  | _ => todo

namespace Program

variable (program : Program nprocs)

/-- What the issuer may do next. A post fails only when the send queue is full, and a poll never
does. -/
structure Follows (todo : List Access) (node : Node nprocs) (action : Action nprocs) : Prop where
  enters : ∀ ret, node.pc = .idle ret → ∃ access rest, todo = access :: rest ∧
    access.Begins program.target node action
  accepts : ∀ call outcome data, action = .post call outcome data → outcome ≠ .accepted →
    maxSendWrPerQp ≤ node.outstanding call.dest
  polls : action ≠ .pollError

/-- What the issuer, the HCAs and the network do. The reads whose bytes are not in place are the
last ones that have been executed, and the others may complete. -/
inductive Step : State nprocs → Event nprocs → State nprocs → Prop where
  | process {state : State nprocs} {action : Action nprocs} {cluster : Cluster nprocs} :
      action.isProcess = true →
      program.Follows state.todo (state.cluster program.issuer) action →
      Cluster.Step state.cluster (.act program.issuer action) cluster →
        Step state (.process action) { state with
          cluster := cluster
          todo := advance state.todo action }
  | hardware {state : State nprocs} {label : Label nprocs} {cluster : Cluster nprocs} :
      Faultless label → Unread label → Cluster.Step state.cluster label cluster →
        Step state (.hardware label) { state with cluster := cluster }
  | ask {state : State nprocs} {posted : Posted} {fetched : List UInt8} {node : Node nprocs} :
      posted.wr.opcode = .rdmaRead →
      Node.Step (state.cluster program.issuer) (.execute program.target posted true fetched) node →
      node.mem = (state.cluster program.issuer).mem →
        Step state (.ask posted) { state with
          cluster := Function.update state.cluster program.issuer node
          reads := state.reads ++ [⟨posted, none⟩] }
  | answer {state : State nprocs} {posted : Posted} {front back : List Reading} :
      state.reads = front ++ ⟨posted, none⟩ :: back →
      permitsRead (state.cluster program.target).mrs posted.wr.rkey posted.wr.remoteAddr
        posted.wr.length →
        Step state (.answer posted (readBlock (state.cluster program.target).mem
          posted.wr.remoteAddr posted.wr.length)) { state with
            reads := front ++ ⟨posted, some (readBlock (state.cluster program.target).mem
              posted.wr.remoteAddr posted.wr.length)⟩ :: back }
  | bring {state : State nprocs} {posted : Posted} {bytes : List UInt8} {rest : List Reading} :
      state.reads = ⟨posted, some bytes⟩ :: rest →
        Step state (.bring posted bytes) { state with
          cluster := Function.update state.cluster program.issuer
            { state.cluster program.issuer with
              mem := posted.wr.scatter (state.cluster program.issuer).mem bytes }
          reads := rest }
  | complete {state : State nprocs} {executed : Executed} {front back : List Executed}
      {node : Node nprocs} :
      (state.cluster program.issuer).executed program.target = front ++ executed :: back →
      state.reads.length ≤ back.countP isRead →
      Node.Step (state.cluster program.issuer) (.complete program.target executed .success) node →
      node.executed program.target = front ++ back →
        Step state (.hardware (.act program.issuer (.complete program.target executed .success)))
          { state with cluster := Function.update state.cluster program.issuer node }

/-- The memories of the issuer and of the target. -/
def memories (cluster : Cluster nprocs) : Stores UInt8 where
  near := (cluster program.issuer).mem
  far := (cluster program.target).mem

/-- The program starts on ranks that are at rest, with the memories `start`. -/
structure Initial (start : Stores UInt8) (state : State nprocs) : Prop where
  rested : ∃ held setup, Rested held setup state.cluster
  reads : state.reads = []
  todo : state.todo = program.accesses
  linked : Linked state.cluster program.issuer program.target
  rights : (state.cluster program.target).mrs = program.rights
  memories : program.memories state.cluster = start

/-- The transition system of a cluster that runs the program. -/
def system (start : Stores UInt8) : LabelledSystem (State nprocs) (Event nprocs) where
  Initial := program.Initial start
  Step := program.Step

/-- The issuer has returned from its last call. -/
def Finished (state : State nprocs) : Prop :=
  state.todo = [] ∧ ∃ ret, (state.cluster program.issuer).pc = .idle ret

end Program

end Ympi.OneSided
