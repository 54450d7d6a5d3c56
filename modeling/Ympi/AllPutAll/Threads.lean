import Ympi.AllPutAll.Benchmark

/-! # Threads of the benchmark

Where a thread is says which library calls of `do_allputall` come before it. A rank with its
thread is a transition system of its own, and the benchmark maps to that of each rank.
-/

namespace Ympi.AllPutAll

open Foundation Messaging

variable {nprocs : ℕ}

namespace Thread

variable {thread : Thread} {turn : ℕ}

/-- The turn of a loop lies in the range of the loop. -/
def InRange (thread : Thread) : Prop :=
  match thread.stage with
  | .sending i => 1 ≤ i ∧ i < allputallNumprocs
  | .receiving i => 1 ≤ i ∧ i < allputallNumprocs
  | _ => True

theorem next_sending {i : ℕ} (stage : thread.stage = .sending i) :
    (i + 1 < allputallNumprocs ∧ thread.next = ⟨thread.iteration, .sending (i + 1)⟩) ∨
      (allputallNumprocs ≤ i + 1 ∧ thread.next = ⟨thread.iteration, .flushing⟩) := by
  by_cases more : i + 1 < allputallNumprocs
  · exact Or.inl ⟨more, by simp only [next, stage, if_pos more]⟩
  · exact Or.inr ⟨Nat.not_lt.mp more, by simp only [next, stage, if_neg more]⟩

theorem next_flushing (stage : thread.stage = .flushing) :
    thread.next = ⟨thread.iteration, .receiving 1⟩ := by
  simp only [next, stage]

theorem next_receiving {i : ℕ} (stage : thread.stage = .receiving i) :
    (i + 1 < allputallNumprocs ∧ thread.next = ⟨thread.iteration, .receiving (i + 1)⟩) ∨
      (allputallNumprocs ≤ i + 1 ∧ thread.next = ⟨thread.iteration, .returning⟩) := by
  by_cases more : i + 1 < allputallNumprocs
  · exact Or.inl ⟨more, by simp only [next, stage, if_pos more]⟩
  · exact Or.inr ⟨Nat.not_lt.mp more, by simp only [next, stage, if_neg more]⟩

theorem next_returning (stage : thread.stage = .returning) :
    thread.next = ⟨thread.iteration + 1, .sending 1⟩ := by
  simp only [next, stage]

theorem next_inRange (thread : Thread) : thread.next.InRange := by
  cases stage : thread.stage with
  | sending i =>
      rcases next_sending stage with ⟨more, same⟩ | ⟨last, same⟩
      · rw [same]
        exact ⟨Nat.le_add_left 1 i, more⟩
      · rw [same]
        trivial
  | flushing =>
      rw [next_flushing stage]
      exact ⟨le_rfl, by decide⟩
  | receiving i =>
      rcases next_receiving stage with ⟨more, same⟩ | ⟨last, same⟩
      · rw [same]
        exact ⟨Nat.le_add_left 1 i, more⟩
      · rw [same]
        trivial
  | returning =>
      rw [next_returning stage]
      exact ⟨le_rfl, by decide⟩

/-- The thread once the call that its process is in has returned. -/
def entered (thread : Thread) : Pc nprocs → Thread
  | .idle _ => thread
  | _ => thread.next

theorem settle_of_ne {pc : Pc nprocs} (busy : ∀ ret, pc ≠ .idle ret) :
    thread.settle pc = thread := by
  cases pc with
  | idle ret => exact absurd rfl (busy ret)
  | _ => rfl

/-- A process that enters a call or goes on in it has entered the calls up to this one. -/
theorem settle_entered (thread : Thread) (pc : Pc nprocs) :
    (thread.settle pc).entered pc = thread.next := by
  cases pc <;> rfl

/-- The calls of `YMPI_Zsend` to the peer of a turn that come before the thread. -/
def sends (thread : Thread) (turn : ℕ) : ℕ :=
  match thread.stage with
  | .sending i => if turn < i then thread.iteration + 1 else thread.iteration
  | _ => thread.iteration + 1

theorem sends_le (thread : Thread) (turn : ℕ) : thread.sends turn ≤ thread.iteration + 1 := by
  unfold sends
  split
  · split <;> omega
  · exact le_rfl

/-- A thread on its way passes its calls of `YMPI_Zsend` one by one. -/
theorem next_sends (thread : Thread) (pos : 1 ≤ turn) : thread.sends turn +
    (if thread.stage = .sending turn then 1 else 0) ≤ thread.next.sends turn ∧
      thread.next.sends turn ≤ thread.iteration + 1 := by
  cases stage : thread.stage with
  | sending i =>
      rcases next_sending stage with ⟨more, same⟩ | ⟨last, same⟩
      · rw [same]
        simp only [sends, stage, Stage.sending.injEq]
        split <;> split <;> split <;> omega
      · rw [same]
        simp only [sends, stage, Stage.sending.injEq]
        split <;> split <;> omega
  | flushing =>
      rw [next_flushing stage]
      simp [sends, stage]
  | receiving i =>
      rcases next_receiving stage with ⟨more, same⟩ | ⟨last, same⟩
      · rw [same]
        simp [sends, stage]
      · rw [same]
        simp [sends, stage]
  | returning =>
      rw [next_returning stage]
      simp only [sends, stage, reduceCtorEq, if_false, if_neg (Nat.not_lt.mpr pos)]
      omega

theorem entered_sends_le (pos : 1 ≤ turn) (pc : Pc nprocs) :
    (thread.entered pc).sends turn ≤ thread.iteration + 1 := by
  cases pc with
  | idle ret => exact thread.sends_le turn
  | _ => exact (thread.next_sends pos).2

theorem entered_sends_le_next (pos : 1 ≤ turn) (pc : Pc nprocs) :
    (thread.entered pc).sends turn ≤ thread.next.sends turn := by
  cases pc with
  | idle ret => exact (Nat.le_add_right _ _).trans (thread.next_sends pos).1
  | _ => exact le_rfl

/-- The calls of `YMPI_Zrecv` for the peer of a turn that come before the thread. -/
def takes (thread : Thread) (turn : ℕ) : ℕ :=
  match thread.stage with
  | .receiving i => if turn < i then thread.iteration + 1 else thread.iteration
  | .returning => thread.iteration + 1
  | _ => thread.iteration

theorem iteration_le_takes (thread : Thread) (turn : ℕ) :
    thread.iteration ≤ thread.takes turn := by
  unfold takes
  split
  · split <;> omega
  · omega
  · exact le_rfl

/-- A thread passes its calls of `YMPI_Zrecv` one by one. -/
theorem next_takes_le (thread : Thread) (pos : 1 ≤ turn) (bound : turn < allputallNumprocs) :
    thread.next.takes turn ≤
      thread.takes turn + if thread.stage = .receiving turn then 1 else 0 := by
  cases stage : thread.stage with
  | sending i =>
      rcases next_sending stage with ⟨more, same⟩ | ⟨last, same⟩
      · rw [same]
        simp [takes, stage]
      · rw [same]
        simp [takes, stage]
  | flushing =>
      rw [next_flushing stage]
      simp only [takes, stage, reduceCtorEq, if_false, if_neg (Nat.not_lt.mpr pos)]
      omega
  | receiving i =>
      rcases next_receiving stage with ⟨more, same⟩ | ⟨last, same⟩
      · rw [same]
        simp only [takes, stage, Stage.receiving.injEq]
        split <;> split <;> split <;> omega
      · rw [same]
        simp only [takes, stage, Stage.receiving.injEq]
        split <;> split <;> omega
  | returning =>
      rw [next_returning stage]
      simp [takes, stage]

/-- The calls of `YMPI_Zrecv` that come before the thread. -/
def fetches (thread : Thread) : ℕ :=
  127 * thread.iteration +
    match thread.stage with
    | .receiving i => i - 1
    | .returning => 127
    | _ => 0

theorem next_fetches (inside : thread.InRange) : thread.next.fetches =
    thread.fetches + match thread.stage with
      | .receiving _ => 1
      | _ => 0 := by
  cases stage : thread.stage with
  | sending i =>
      rcases next_sending stage with ⟨more, same⟩ | ⟨last, same⟩
      · rw [same]
        simp only [fetches, stage]
      · rw [same]
        simp only [fetches, stage]
  | flushing =>
      rw [next_flushing stage]
      simp only [fetches, stage]
  | receiving i =>
      simp only [InRange, stage, allputallNumprocs] at inside
      rcases next_receiving stage with ⟨more, same⟩ | ⟨last, same⟩
      · rw [same]
        simp only [fetches, stage]
        omega
      · rw [same]
        simp only [fetches, stage, allputallNumprocs] at last ⊢
        omega
  | returning =>
      rw [next_returning stage]
      simp only [fetches, stage]
      omega

end Thread

section RankSystem

variable {setting : Setting nprocs} {rank : Fin nprocs}

/-- One rank with its HCA. -/
inductive RankStep (setting : Setting nprocs) (rank : Fin nprocs) :
    Node nprocs × Thread → Action nprocs → Node nprocs × Thread → Prop where
  | process {node node' : Node nprocs} {thread : Thread} {action : Action nprocs} :
      action.isProcess = true → setting.Follows rank thread node action →
      Node.Step node action node' →
        RankStep setting rank (node, thread) action (node', thread.settle node'.pc)
  | hardware {node node' : Node nprocs} {thread : Thread} {action : Action nprocs} :
      action.isProcess = false → Node.Step node action node' →
        RankStep setting rank (node, thread) action (node', thread)

/-- A rank that has been through `YMPI_Init_ranklist`. -/
structure RankInitial (setting : Setting nprocs) (rank : Fin nprocs)
    (start : Node nprocs × Thread) : Prop where
  initialized : ∃ setup, (Node.system nprocs).Reaches setup start.1 ∧
    ∀ action ∈ setup, action.isReturn = true
  started : start.1.Started
  connected : ∀ peer ∈ setting.peers rank, start.1.ctx.qps.qpList peer ≠ none
  thread : start.2 = .start

/-- The transition system of one rank in an arbitrary environment. -/
def rankSystem (setting : Setting nprocs) (rank : Fin nprocs) :
    LabelledSystem (Node nprocs × Thread) (Action nprocs) where
  Initial := RankInitial setting rank
  Step := RankStep setting rank

theorem RankStep.node {before after : Node nprocs × Thread} {action : Action nprocs}
    (step : RankStep setting rank before action after) : Node.Step before.1 action after.1 := by
  cases step with
  | process _ _ own => exact own
  | hardware _ own => exact own

/-- The node of a rank has been reached after its setup. -/
theorem reaches_setup {actions : List (Action nprocs)} {node : Node nprocs} {thread : Thread}
    (reached : (rankSystem setting rank).Reaches actions (node, thread)) :
    ∃ setup, (Node.system nprocs).Reaches (setup ++ actions) node ∧
      ∀ action ∈ setup, action.isReturn = true := by
  obtain ⟨start, initial, execution⟩ := reached
  obtain ⟨setup, ready, returns⟩ := initial.initialized
  have image : (Node.system nprocs).Execution start.1 (actions.flatMap fun action => [action]) node :=
    execution.simulate Prod.fst _ fun _ _ _ step => .single (RankStep.node step)
  rw [List.flatMap_singleton'] at image
  exact ⟨setup, ready.append image, returns⟩

/-- The HCA works while the thread stays where it is. -/
theorem hardware_execution {actions : List (Action nprocs)} {node node' : Node nprocs}
    (execution : (Node.system nprocs).Execution node actions node')
    (own : ∀ action ∈ actions, action.isProcess = false) (thread : Thread) :
    (rankSystem setting rank).Execution (node, thread) actions (node', thread) := by
  induction execution with
  | refl => exact .refl _
  | snoc _ step ih =>
      refine .snoc (ih fun action member => own action (List.mem_append_left _ member)) ?_
      exact .hardware (own _ (List.mem_append_right _ List.mem_cons_self)) step

/-- A step of the benchmark is an execution of each of its ranks. -/
theorem Step.execution {state state' : State nprocs} {label : Label nprocs}
    (step : Step setting state label state') (rank : Fin nprocs) :
    (rankSystem setting rank).Execution (state.cluster rank, state.threads rank)
      (label.actionsOf rank) (state'.cluster rank, state'.threads rank) := by
  cases step with
  | @process actor action cluster own follows acts =>
      by_cases same : actor = rank
      · subst same
        simp only [Label.actionsOf, if_true, Function.update_self]
        exact .single (.process own follows acts.own.2)
      · have quiet := acts.execution rank
        simp only [Label.actionsOf, if_neg same, Function.update_of_ne (Ne.symm same)] at quiet ⊢
        exact hardware_execution quiet (by simp) _
  | @hardware _ cluster hardware acts =>
      rcases acts.node_cases rank with ⟨action, rfl, own⟩ | ⟨network, all⟩
      · simp only [Label.actionsOf, if_true]
        refine .single (.hardware ?_ own)
        simpa [isHardware] using hardware
      · exact hardware_execution network
          (fun action member => Action.isProcess_network (all action member)) _

/-- In the setup of all ranks each rank takes steps of `YMPID_Return` only. -/
theorem nodeHistory_isReturn {setup : List (Label nprocs)}
    (returns : ∀ label ∈ setup, label.isReturn = true) {action : Action nprocs}
    (member : action ∈ nodeHistory rank setup) : action.isReturn = true := by
  obtain ⟨label, listed, taken⟩ := List.mem_flatMap.mp member
  have returned := returns label listed
  cases label with
  | act actor own =>
      simp only [Label.actionsOf, List.mem_ite_nil_right, List.mem_singleton] at taken
      obtain ⟨-, rfl⟩ := taken
      exact returned
  | _ => cases returned

/-- **Projection.** A rank of a reached state has been reached by its own history. -/
theorem reaches_rank {labels : List (Label nprocs)} {state : State nprocs}
    (reached : (system setting).Reaches labels state) (rank : Fin nprocs) :
    (rankSystem setting rank).Reaches (nodeHistory rank labels)
      (state.cluster rank, state.threads rank) := by
  refine reached.simulate (fun state => (state.cluster rank, state.threads rank))
    (Label.actionsOf rank) ?_ fun _ _ _ step => Step.execution step rank
  intro start initial
  obtain ⟨setup, ready, returns⟩ := initial.initialized
  exact ⟨⟨_, reaches_node ready rank, fun _ member => nodeHistory_isReturn returns member⟩,
    initial.started rank, initial.connected rank, initial.threads rank⟩

end RankSystem

end Ympi.AllPutAll
