import Mathlib.Logic.Relation

/-! # Executions of labelled transition systems

A system is a set of initial states and a labelled step relation. An execution
keeps the labels of its steps in order, so a property of an execution may speak
about its whole history. The rules below are the ones a development over such a
system needs: induction over histories, executions that satisfy a condition at
every step, and the image of an execution under a step-wise simulation.
-/

namespace Ympi.Foundation

universe u v w x

/-- A labelled transition system: where it may start and what it may do. -/
structure LabelledSystem (State : Type u) (Label : Type v) where
  Initial : State → Prop
  Step : State → Label → State → Prop

namespace LabelledSystem

variable {State : Type u} {Label : Type v} (system : LabelledSystem State Label)

/-- A finite execution with the labels of its steps, oldest first. -/
inductive Execution : State → List Label → State → Prop where
  | refl (state : State) : Execution state [] state
  | snoc {source mid target : State} {labels : List Label} {label : Label} :
      Execution source labels mid → system.Step mid label target →
        Execution source (labels ++ [label]) target

/-- `labels` is the complete history of some execution ending in `state`. -/
def Reaches (labels : List Label) (state : State) : Prop :=
  ∃ start, system.Initial start ∧ system.Execution start labels state

variable {system}

namespace Execution

theorem single {source target : State} {label : Label} (step : system.Step source label target) :
    system.Execution source [label] target :=
  .snoc (.refl source) step

theorem append {source mid target : State} {front back : List Label}
    (first : system.Execution source front mid) (second : system.Execution mid back target) :
    system.Execution source (front ++ back) target := by
  induction second with
  | refl => simpa using first
  | snoc _ step ih =>
      rw [← List.append_assoc]
      exact .snoc ih step

theorem cons {source mid target : State} {label : Label} {labels : List Label}
    (step : system.Step source label mid) (rest : system.Execution mid labels target) :
    system.Execution source (label :: labels) target :=
  (single step).append rest

/-- A property of a state that steps with the labels of an execution keep is kept by
the execution. -/
theorem invariant {source target : State} {labels : List Label} {motive : State → Prop}
    (execution : system.Execution source labels target)
    (keeps : ∀ before, ∀ label ∈ labels, ∀ after, system.Step before label after →
      motive before → motive after)
    (holds : motive source) : motive target := by
  induction execution with
  | refl => exact holds
  | snoc _ step ih =>
      have earlier := ih fun before label member =>
        keeps before label (List.mem_append_left _ member)
      exact keeps _ _ (List.mem_append_right _ List.mem_cons_self) _ step earlier

/-- **Descent.** When every state of an execution is at rest or has a step that lowers a measure,
the execution can go on to one at rest. What these steps keep holds there too. -/
theorem descends {source : State} {motive : List Label → State → Prop} {rests : State → Prop}
    {measure : State → Nat}
    (progress : ∀ labels state, system.Execution source labels state → motive labels state →
      rests state ∨ ∃ label after, system.Step state label after ∧
        motive (labels ++ [label]) after ∧ measure after < measure state)
    {labels : List Label} {state : State} (begun : system.Execution source labels state)
    (holds : motive labels state) :
    ∃ more after, system.Execution state more after ∧ motive (labels ++ more) after ∧
      rests after := by
  induction bound : measure state using Nat.strongRecOn generalizing labels state with
  | ind size ih =>
      rcases progress labels state begun holds with done | ⟨label, next, step, kept, less⟩
      · exact ⟨[], state, .refl state, by rwa [List.append_nil], done⟩
      · subst bound
        obtain ⟨more, after, execution, holds', done⟩ := ih _ less (begun.snoc step) kept rfl
        refine ⟨label :: more, after, .cons step execution, ?_, done⟩
        rwa [List.append_assoc, List.singleton_append] at holds'

end Execution

namespace Reaches

theorem initial {start : State} (starts : system.Initial start) : system.Reaches [] start :=
  ⟨start, starts, .refl start⟩

theorem step {before after : State} {labels : List Label} {label : Label}
    (reached : system.Reaches labels before) (next : system.Step before label after) :
    system.Reaches (labels ++ [label]) after := by
  obtain ⟨start, starts, execution⟩ := reached
  exact ⟨start, starts, .snoc execution next⟩

theorem append {before after : State} {front back : List Label}
    (reached : system.Reaches front before) (execution : system.Execution before back after) :
    system.Reaches (front ++ back) after := by
  obtain ⟨start, starts, first⟩ := reached
  exact ⟨start, starts, first.append execution⟩

/-- **Induction over histories.** A property of histories and states that holds
initially and is kept by every step out of a reached state holds whenever the
history reaches the state. -/
theorem induction {motive : List Label → State → Prop}
    (start : ∀ state, system.Initial state → motive [] state)
    (keeps : ∀ labels before label after, system.Reaches labels before → motive labels before →
      system.Step before label after → motive (labels ++ [label]) after)
    {labels : List Label} {state : State} (reached : system.Reaches labels state) :
    motive labels state := by
  obtain ⟨source, starts, execution⟩ := reached
  induction execution with
  | refl => exact start _ starts
  | snoc earlier next ih => exact keeps _ _ _ _ ⟨source, starts, earlier⟩ ih next

/-- An invariant: it holds initially and every step keeps it. -/
theorem invariant {property : State → Prop}
    (start : ∀ state, system.Initial state → property state)
    (keeps : ∀ before label after, system.Step before label after → property before →
      property after)
    {labels : List Label} {state : State} (reached : system.Reaches labels state) :
    property state :=
  reached.induction (motive := fun _ => property) start
    fun _ before label after _ holds next => keeps before label after next holds

/-- What lowers a measure from every reached state on comes to rest. -/
theorem descends {motive : List Label → State → Prop} {rests : State → Prop}
    {measure : State → Nat}
    (progress : ∀ labels state, system.Reaches labels state → motive labels state →
      rests state ∨ ∃ label after, system.Step state label after ∧
        motive (labels ++ [label]) after ∧ measure after < measure state)
    {labels : List Label} {state : State} (reached : system.Reaches labels state)
    (holds : motive labels state) :
    ∃ more after, system.Execution state more after ∧ motive (labels ++ more) after ∧
      rests after := by
  obtain ⟨start, starts, begun⟩ := reached
  exact begun.descends (motive := motive)
    (fun labels state execution => progress labels state ⟨start, starts, execution⟩) holds

end Reaches

/-- The system whose steps also satisfy `allowed`. -/
def restrict (system : LabelledSystem State Label)
    (allowed : State → Label → State → Prop) : LabelledSystem State Label where
  Initial := system.Initial
  Step before label after := system.Step before label after ∧ allowed before label after

theorem Execution.of_restrict {allowed : State → Label → State → Prop} {source target : State}
    {labels : List Label} (execution : (system.restrict allowed).Execution source labels target) :
    system.Execution source labels target := by
  induction execution with
  | refl => exact .refl _
  | snoc _ step ih => exact .snoc ih step.1

/-- An execution is one of the restricted system if all its labels are allowed. -/
theorem Execution.restrict {allowed : State → Label → State → Prop} {source target : State}
    {labels : List Label} (execution : system.Execution source labels target)
    (allows : ∀ label ∈ labels, ∀ before after, allowed before label after) :
    (system.restrict allowed).Execution source labels target := by
  induction execution with
  | refl => exact .refl _
  | snoc _ step ih =>
      refine .snoc (ih fun label member => allows label (List.mem_append_left _ member)) ⟨step, ?_⟩
      exact allows _ (List.mem_append_right _ List.mem_cons_self) _ _

/-- An execution stays in a set that contains every state reachable from its source. -/
theorem Execution.restrict_reachable {property : State → Prop} {source target : State}
    {labels : List Label} (execution : system.Execution source labels target)
    (holds : ∀ front state, system.Execution source front state → property state) :
    (system.restrict fun before _ _ => property before).Execution source labels target := by
  induction execution with
  | refl => exact .refl _
  | snoc earlier step ih => exact .snoc ih ⟨step, holds _ _ earlier⟩

theorem Execution.restrict_mono {allowed allowed' : State → Label → State → Prop}
    {source target : State} {labels : List Label}
    (execution : (system.restrict allowed).Execution source labels target)
    (implies : ∀ before label after, allowed before label after → allowed' before label after) :
    (system.restrict allowed').Execution source labels target := by
  induction execution with
  | refl => exact .refl _
  | snoc _ step ih => exact .snoc ih ⟨step.1, implies _ _ _ step.2⟩

theorem Reaches.of_restrict {allowed : State → Label → State → Prop} {state : State}
    {labels : List Label} (reached : (system.restrict allowed).Reaches labels state) :
    system.Reaches labels state := by
  obtain ⟨start, starts, execution⟩ := reached
  exact ⟨start, starts, execution.of_restrict⟩

/-- The system that also records what `observe` sees of each step. -/
def recording {Observation : Type w} (system : LabelledSystem State Label)
    (observe : State → Label → List Observation) :
    LabelledSystem (State × List Observation) Label where
  Initial start := system.Initial start.1 ∧ start.2 = []
  Step before label after :=
    system.Step before.1 label after.1 ∧ after.2 = before.2 ++ observe before.1 label

section Recording

variable {Observation : Type w} {observe : State → Label → List Observation}

theorem Execution.of_recording {source target : State × List Observation} {labels : List Label}
    (execution : (system.recording observe).Execution source labels target) :
    system.Execution source.1 labels target.1 := by
  induction execution with
  | refl => exact .refl _
  | snoc _ step ih => exact .snoc ih step.1

/-- Every execution can be recorded. -/
theorem Execution.recorded {source target : State} {labels : List Label}
    (execution : system.Execution source labels target) (seen : List Observation) :
    ∃ seen', (system.recording observe).Execution (source, seen) labels (target, seen') := by
  induction execution with
  | refl => exact ⟨seen, .refl _⟩
  | @snoc mid target labels label _ step ih =>
      obtain ⟨seen', recorded⟩ := ih
      exact ⟨seen' ++ observe mid label, .snoc recorded ⟨step, rfl⟩⟩

end Recording

section Simulation

variable {State' : Type w} {Label' : Type x} {abstract : LabelledSystem State' Label'}

/-- When each step is an execution of the abstract system between the images of
its ends, an execution maps to the concatenation of those executions. -/
theorem Execution.simulate (image : State → State') (labelImage : Label → List Label')
    (simulates : ∀ before label after, system.Step before label after →
      abstract.Execution (image before) (labelImage label) (image after))
    {source target : State} {labels : List Label}
    (execution : system.Execution source labels target) :
    abstract.Execution (image source) (labels.flatMap labelImage) (image target) := by
  induction execution with
  | refl => exact .refl _
  | snoc _ step ih =>
      rw [List.flatMap_append, List.flatMap_singleton]
      exact ih.append (simulates _ _ _ step)

/-- **Simulation.** Reached states map to reached states of the abstract system. -/
theorem Reaches.simulate (image : State → State') (labelImage : Label → List Label')
    (starts : ∀ state, system.Initial state → abstract.Initial (image state))
    (simulates : ∀ before label after, system.Step before label after →
      abstract.Execution (image before) (labelImage label) (image after))
    {state : State} {labels : List Label} (reached : system.Reaches labels state) :
    abstract.Reaches (labels.flatMap labelImage) (image state) := by
  obtain ⟨start, initial, execution⟩ := reached
  exact ⟨image start, starts start initial, execution.simulate image labelImage simulates⟩

end Simulation

end LabelledSystem

end Ympi.Foundation
