import Ympi.Messaging.Node

/-! # The ranks and the network

A cluster is one node for each rank. Its steps are the local steps of the nodes and
the deliveries of the network, in any interleaving. The requests posted to one queue
pair take effect in the order in which they were posted. A send takes effect when
its message finds a receive buffer at the peer, and is retried until then; an RDMA
request takes effect or is refused by the rights of the memory that it names.

`Reaches.node` maps a history of the cluster to the history of one of its nodes in
an environment, so what is proved about every history of a node holds in the
cluster.
-/

namespace Ympi.Messaging

open Foundation

variable {nprocs : ℕ}

/-- One node for each rank. -/
abbrev Cluster (nprocs : ℕ) := Fin nprocs → Node nprocs

inductive Label (nprocs : ℕ) where
  /-- A step of a process, or a completion produced by its HCA. -/
  | act (rank : Fin nprocs) (action : Action nprocs)
  /-- The message of a send request arrives in the buffer of `wr`. -/
  | deliver (source dest : Fin nprocs) (posted : Posted) (wr : RecvWr)
  | rdmaWrite (source dest : Fin nprocs) (posted : Posted) (done : Bool)
  | rdmaRead (source dest : Fin nprocs) (posted : Posted) (done : Bool) (fetched : List UInt8)

/-- The registrations of a process let a peer write `length` bytes at `address`. -/
def permitsWrite (mrs : List Mr) (rkey address length : ℕ) : Prop :=
  length = 0 ∨ ∃ mr ∈ mrs, mr.rkey = rkey ∧ mr.remoteWrite = true ∧ mr.covers address length

/-- The registrations of a process let a peer read `length` bytes at `address`. -/
def permitsRead (mrs : List Mr) (rkey address length : ℕ) : Prop :=
  length = 0 ∨ ∃ mr ∈ mrs, mr.rkey = rkey ∧ mr.remoteRead = true ∧ mr.covers address length

/-- The number of bytes that a request describes. -/
def SendWr.length (wr : SendWr) : ℕ :=
  match wr.sgList with
  | none => 0
  | some sge => sge.length

namespace Cluster

inductive Step : Cluster nprocs → Label nprocs → Cluster nprocs → Prop where
  | act {cluster : Cluster nprocs} {rank : Fin nprocs} {action : Action nprocs}
      {node : Node nprocs} :
      action.isNetwork = false → Node.Step (cluster rank) action node →
        Step cluster (.act rank action) (Function.update cluster rank node)
  | deliver {cluster : Cluster nprocs} {source dest : Fin nprocs} {posted : Posted} {wr : RecvWr}
      {sender receiver : Node nprocs} :
      posted.wr.opcode = .send →
      Node.Step (cluster source) (.execute dest posted true []) sender →
      Node.Step (Function.update cluster source sender dest) (.arrive source wr posted.data)
        receiver →
        Step cluster (.deliver source dest posted wr)
          (Function.update (Function.update cluster source sender) dest receiver)
  | writeDone {cluster : Cluster nprocs} {source dest : Fin nprocs} {posted : Posted}
      {sender receiver : Node nprocs} :
      posted.wr.opcode = .rdmaWrite →
      permitsWrite (cluster dest).mrs posted.wr.rkey posted.wr.remoteAddr posted.data.length →
      Node.Step (cluster source) (.execute dest posted true []) sender →
      Node.Step (Function.update cluster source sender dest)
        (.land posted.wr.remoteAddr posted.data) receiver →
        Step cluster (.rdmaWrite source dest posted true)
          (Function.update (Function.update cluster source sender) dest receiver)
  | writeRefused {cluster : Cluster nprocs} {source dest : Fin nprocs} {posted : Posted}
      {sender : Node nprocs} :
      posted.wr.opcode = .rdmaWrite →
      ¬ permitsWrite (cluster dest).mrs posted.wr.rkey posted.wr.remoteAddr posted.data.length →
      Node.Step (cluster source) (.execute dest posted false []) sender →
        Step cluster (.rdmaWrite source dest posted false) (Function.update cluster source sender)
  | readDone {cluster : Cluster nprocs} {source dest : Fin nprocs} {posted : Posted}
      {sender : Node nprocs} :
      posted.wr.opcode = .rdmaRead →
      permitsRead (cluster dest).mrs posted.wr.rkey posted.wr.remoteAddr posted.wr.length →
      Node.Step (cluster source) (.execute dest posted true
        (readBlock (cluster dest).mem posted.wr.remoteAddr posted.wr.length)) sender →
        Step cluster (.rdmaRead source dest posted true
          (readBlock (cluster dest).mem posted.wr.remoteAddr posted.wr.length))
          (Function.update cluster source sender)
  | readRefused {cluster : Cluster nprocs} {source dest : Fin nprocs} {posted : Posted}
      {sender : Node nprocs} :
      posted.wr.opcode = .rdmaRead →
      ¬ permitsRead (cluster dest).mrs posted.wr.rkey posted.wr.remoteAddr posted.wr.length →
      Node.Step (cluster source) (.execute dest posted false []) sender →
        Step cluster (.rdmaRead source dest posted false []) (Function.update cluster source sender)

/-- The transition system of `nprocs` ranks that start messaging together. -/
def system (nprocs : ℕ) : LabelledSystem (Cluster nprocs) (Label nprocs) where
  Initial cluster := ∀ rank, (cluster rank).Initial
  Step := Step

end Cluster

namespace Label

/-- The actions by which the node of `rank` takes part in a step of the cluster. -/
def actionsOf (rank : Fin nprocs) : Label nprocs → List (Action nprocs)
  | .act actor action => if actor = rank then [action] else []
  | .deliver source dest posted wr =>
      (if source = rank then [.execute dest posted true []] else []) ++
        if dest = rank then [.arrive source wr posted.data] else []
  | .rdmaWrite source dest posted done =>
      (if source = rank then [.execute dest posted done []] else []) ++
        if dest = rank ∧ done = true then [.land posted.wr.remoteAddr posted.data] else []
  | .rdmaRead source dest posted done fetched =>
      if source = rank then [.execute dest posted done fetched] else []

end Label

/-- The node that acts in a step of the cluster satisfies a condition on its steps. -/
def Label.Satisfies (allowed : Node nprocs → Action nprocs → Node nprocs → Prop)
    (before : Cluster nprocs) (label : Label nprocs) (after : Cluster nprocs) : Prop :=
  match label with
  | .act rank action => allowed (before rank) action (after rank)
  | _ => True

namespace Cluster

variable {allowed : Node nprocs → Action nprocs → Node nprocs → Prop}

/-- A step of one node of a cluster, seen from the node of `rank`. -/
private theorem update_execution (cluster : Cluster nprocs) (rank : Fin nprocs)
    {actor : Fin nprocs} {action : Action nprocs} {node : Node nprocs}
    (step : Node.Step (cluster actor) action node) (allows : allowed (cluster actor) action node) :
    ((Node.system nprocs).restrict allowed).Execution (cluster rank)
      (if actor = rank then [action] else []) (Function.update cluster actor node rank) := by
  by_cases same : actor = rank
  · subst same
    rw [if_pos rfl, Function.update_self]
    exact .single ⟨step, allows⟩
  · rw [if_neg same, Function.update_of_ne (Ne.symm same)]
    exact .refl _

/-- A step of the cluster is an execution of each of its nodes, and a condition that the
steps of processes satisfy and that allows all steps of the network holds along it. -/
theorem Step.node {cluster cluster' : Cluster nprocs} {label : Label nprocs}
    (step : Step cluster label cluster')
    (free : ∀ before action after, action.isNetwork = true → allowed before action after)
    (satisfied : label.Satisfies allowed cluster cluster') (rank : Fin nprocs) :
    ((Node.system nprocs).restrict allowed).Execution (cluster rank) (label.actionsOf rank)
      (cluster' rank) := by
  cases step with
  | act _ own =>
      rw [Label.Satisfies, Function.update_self] at satisfied
      exact update_execution cluster rank own satisfied
  | deliver _ sent arrived =>
      exact (update_execution cluster rank sent (free _ _ _ rfl)).append
        (update_execution _ rank arrived (free _ _ _ rfl))
  | writeDone _ _ sent landed =>
      have moved := (update_execution cluster rank sent (free _ _ _ rfl)).append
        (update_execution _ rank landed (free _ _ _ rfl))
      simpa [Label.actionsOf] using moved
  | writeRefused _ _ sent =>
      have moved := update_execution cluster rank sent (free _ _ _ rfl)
      simpa [Label.actionsOf] using moved
  | readDone _ _ sent => exact update_execution cluster rank sent (free _ _ _ rfl)
  | readRefused _ _ sent => exact update_execution cluster rank sent (free _ _ _ rfl)

/-- A step of the cluster is an execution of each of its nodes. -/
theorem Step.execution {cluster cluster' : Cluster nprocs} {label : Label nprocs}
    (step : Step cluster label cluster') (rank : Fin nprocs) :
    (Node.system nprocs).Execution (cluster rank) (label.actionsOf rank) (cluster' rank) := by
  have allowed : label.Satisfies (fun _ _ _ => True) cluster cluster' := by
    cases label <;> trivial
  exact (step.node (fun _ _ _ _ => trivial) allowed rank).of_restrict

/-- A process takes steps of its own. -/
theorem Step.own {cluster cluster' : Cluster nprocs} {rank : Fin nprocs} {action : Action nprocs}
    (step : Step cluster (.act rank action) cluster') :
    action.isNetwork = false ∧ Node.Step (cluster rank) action (cluster' rank) := by
  cases step with
  | act own step =>
      rw [Function.update_self]
      exact ⟨own, step⟩

/-- In a step of the cluster a node takes a step of its own, or the network acts on it. -/
theorem Step.node_cases {cluster cluster' : Cluster nprocs} {label : Label nprocs}
    (step : Step cluster label cluster') (rank : Fin nprocs) :
    (∃ action, label = .act rank action ∧ Node.Step (cluster rank) action (cluster' rank)) ∨
      (Node.system nprocs).Execution (cluster rank) (label.actionsOf rank) (cluster' rank) ∧
        ∀ action ∈ label.actionsOf rank, action.isNetwork = true := by
  have execution := step.execution rank
  cases step with
  | @act actor action node own step =>
      by_cases same : actor = rank
      · subst same
        exact Or.inl ⟨action, rfl, by rw [Function.update_self]; exact step⟩
      · refine Or.inr ⟨execution, ?_⟩
        simp [Label.actionsOf, same]
  | deliver | writeDone | writeRefused =>
      refine Or.inr ⟨execution, ?_⟩
      intro action member
      simp only [Label.actionsOf, List.mem_append, List.mem_ite_nil_right, List.mem_singleton]
        at member
      rcases member with ⟨-, rfl⟩ | ⟨-, rfl⟩ <;> rfl
  | readDone | readRefused =>
      refine Or.inr ⟨execution, ?_⟩
      intro action member
      simp only [Label.actionsOf, List.mem_ite_nil_right, List.mem_singleton] at member
      obtain ⟨-, rfl⟩ := member
      rfl

end Cluster

/-- The history of the node of `rank` in a history of the cluster. -/
def nodeHistory (rank : Fin nprocs) (labels : List (Label nprocs)) : List (Action nprocs) :=
  labels.flatMap (Label.actionsOf rank)

/-- **Projection.** A node of a reached cluster has been reached by its own history. -/
theorem reaches_node {labels : List (Label nprocs)} {cluster : Cluster nprocs}
    (reached : (Cluster.system nprocs).Reaches labels cluster) (rank : Fin nprocs) :
    (Node.system nprocs).Reaches (nodeHistory rank labels) (cluster rank) := by
  refine reached.simulate (fun cluster => cluster rank) (Label.actionsOf rank) ?_ ?_
  · intro start initial
    exact initial rank
  · intro before label after step
    exact step.execution rank

/-- The projection of runs whose processes satisfy a condition at every step. -/
theorem reaches_node_restrict {allowed : Node nprocs → Action nprocs → Node nprocs → Prop}
    (free : ∀ before action after, action.isNetwork = true → allowed before action after)
    {labels : List (Label nprocs)} {cluster : Cluster nprocs}
    (reached : ((Cluster.system nprocs).restrict fun before label after =>
      label.Satisfies allowed before after).Reaches labels cluster) (rank : Fin nprocs) :
    ((Node.system nprocs).restrict allowed).Reaches (nodeHistory rank labels) (cluster rank) := by
  refine reached.simulate (fun cluster => cluster rank) (Label.actionsOf rank) ?_ ?_
  · intro start initial
    exact initial rank
  · intro before label after step
    exact step.1.node free step.2 rank

end Ympi.Messaging
