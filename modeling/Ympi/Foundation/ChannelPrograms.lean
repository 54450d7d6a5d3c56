import Mathlib.Logic.Function.Basic
import Ympi.Foundation.ConflictFree

/-! # Programs over channels

Parties that each run a program of their own and send each other messages over channels that
keep their order. A party names the source that it receives from and waits until a message of
it is there, so whose turn it is decides nothing: the system of all parties is conflict-free.
-/

namespace Ympi.Foundation

universe u v w

/-- What a party does next. -/
inductive ChannelCommand (Party : Type u) (Message : Type v) (Local : Type w) where
  | stop
  | internal (next : Local)
  | send (dest : Party) (message : Message) (next : Local)
  | receive (source : Party) (next : Message → Local)

/-- A program for each party: what it does next, by the state that it is in. -/
abbrev ChannelProgram (Party : Type u) (Message : Type v) (Local : Type w) :=
  Party → Local → ChannelCommand Party Message Local

/-- The states of the parties, and the messages under way by their source and destination. -/
@[ext]
structure Network (Party : Type u) (Message : Type v) (Local : Type w) where
  locals : Party → Local
  channels : Party × Party → List Message

namespace Network

variable {Party : Type u} {Message : Type v} {Local : Type w} [DecidableEq Party]

/-- The party goes on by itself. -/
def advance (network : Network Party Message Local) (party : Party) (next : Local) :
    Network Party Message Local where
  locals := Function.update network.locals party next
  channels := network.channels

/-- The party goes on and puts the messages into the channel to `dest`. -/
def put (network : Network Party Message Local) (party dest : Party) (sent : List Message)
    (next : Local) : Network Party Message Local where
  locals := Function.update network.locals party next
  channels := Function.update network.channels (party, dest)
    (network.channels (party, dest) ++ sent)

/-- The party goes on and takes the oldest message out of the channel from `source`. -/
def take (network : Network Party Message Local) (party source : Party) (next : Local) :
    Network Party Message Local where
  locals := Function.update network.locals party next
  channels := Function.update network.channels (source, party)
    (network.channels (source, party)).tail

variable {network : Network Party Message Local} {party other dest dest' source source' : Party}
  {sent sent' : List Message} {next next' : Local}

theorem put_put (apart : party ≠ other) :
    (network.put party dest sent next).put other dest' sent' next' =
      (network.put other dest' sent' next').put party dest sent next := by
  have channels : (party, dest) ≠ (other, dest') := fun same => apart (congrArg Prod.fst same)
  simp only [put, Function.update_comm apart, Function.update_comm channels,
    Function.update_of_ne channels, Function.update_of_ne channels.symm]

theorem take_take (apart : party ≠ other) :
    (network.take party source next).take other source' next' =
      (network.take other source' next').take party source next := by
  have channels : (source, party) ≠ (source', other) := fun same => apart (congrArg Prod.snd same)
  simp only [take, Function.update_comm apart, Function.update_comm channels,
    Function.update_of_ne channels, Function.update_of_ne channels.symm]

/-- What one party puts in does not matter to another that takes the oldest message. -/
theorem put_take (apart : party ≠ other) (waiting : network.channels (source, other) ≠ []) :
    (network.put party dest sent next).take other source next' =
      (network.take other source next').put party dest sent next := by
  by_cases same : (party, dest) = (source, other)
  · cases same
    simp only [put, take, Function.update_comm apart, Function.update_self,
      Function.update_idem, List.tail_append_of_ne_nil waiting]
  · simp only [put, take, Function.update_comm apart, Function.update_comm same,
      Function.update_of_ne same, Function.update_of_ne (Ne.symm same)]

end Network

namespace ChannelProgram

variable {Party : Type u} {Message : Type v} {Local : Type w} [DecidableEq Party]

/-- A step of a party. -/
inductive Step (program : ChannelProgram Party Message Local) :
    Network Party Message Local → Party → Network Party Message Local → Prop where
  | internal {network : Network Party Message Local} {party : Party} {next : Local} :
      program party (network.locals party) = .internal next →
        Step program network party (network.advance party next)
  | send {network : Network Party Message Local} {party dest : Party} {message : Message}
      {next : Local} :
      program party (network.locals party) = .send dest message next →
        Step program network party (network.put party dest [message] next)
  | receive {network : Network Party Message Local} {party source : Party} {message : Message}
      {rest : List Message} {next : Message → Local} :
      program party (network.locals party) = .receive source next →
      network.channels (source, party) = message :: rest →
        Step program network party (network.take party source (next message))

/-- The transition system of the parties, from a state without messages on. -/
def system (program : ChannelProgram Party Message Local) :
    LabelledSystem (Network Party Message Local) Party where
  Initial network := ∀ channel, network.channels channel = []
  Step := Step program

variable {program : ChannelProgram Party Message Local}
  {network first second : Network Party Message Local} {party other : Party}

/-- A step puts messages into a channel, or takes one out; and the party can do the same in any
network in which it is in the same state and, to take it out, finds the same message. -/
theorem Step.puts_or_takes (step : Step program network party first) :
    (∃ dest sent next, first = network.put party dest sent next ∧
      ∀ network' : Network Party Message Local, network'.locals party = network.locals party →
        Step program network' party (network'.put party dest sent next)) ∨
    ∃ source message next, network.channels (source, party) ≠ [] ∧
      first = network.take party source next ∧
      (network.channels (source, party)).head? = some message ∧
      ∀ network' : Network Party Message Local, network'.locals party = network.locals party →
        (network'.channels (source, party)).head? = some message →
          Step program network' party (network'.take party source next) := by
  cases step with
  | @internal next command =>
      have unchanged (network' : Network Party Message Local) :
          network'.put party party [] next = network'.advance party next := by
        simp only [Network.put, Network.advance, List.append_nil, Function.update_eq_self]
      refine Or.inl ⟨party, [], next, (unchanged network).symm, ?_⟩
      intro network' same
      rw [unchanged network']
      apply Step.internal
      rw [same]
      exact command
  | @send dest message next command =>
      refine Or.inl ⟨dest, [message], next, rfl, ?_⟩
      intro network' same
      apply Step.send
      rw [same]
      exact command
  | @receive source message rest next command waiting =>
      refine Or.inr ⟨source, message, next message, ?_, rfl, ?_, ?_⟩
      · rw [waiting]
        exact List.cons_ne_nil message rest
      · rw [waiting, List.head?_cons]
      · intro network' same oldest
        obtain ⟨rest', waiting'⟩ := List.head?_eq_some_iff.mp oldest
        apply Step.receive _ waiting'
        rw [same]
        exact command

theorem Step.deterministic (step : Step program network party first)
    (step' : Step program network party second) : first = second := by
  cases step with
  | internal command =>
      cases step' with
      | internal command' =>
          cases command.symm.trans command'
          rfl
      | send command' | receive command' => cases command.symm.trans command'
  | send command =>
      cases step' with
      | send command' =>
          cases command.symm.trans command'
          rfl
      | internal command' | receive command' => cases command.symm.trans command'
  | receive command waiting =>
      cases step' with
      | receive command' waiting' =>
          cases command.symm.trans command'
          cases waiting.symm.trans waiting'
          rfl
      | internal command' | send command' => cases command.symm.trans command'

/-- A party that puts messages in leaves another free to take the oldest one. -/
private theorem puts_takes (apart : party ≠ other) {dest source : Party} {sent : List Message}
    {message : Message} {next next' : Local}
    (waiting : network.channels (source, other) ≠ [])
    (oldest : (network.channels (source, other)).head? = some message)
    (puts : ∀ network' : Network Party Message Local,
      network'.locals party = network.locals party →
        Step program network' party (network'.put party dest sent next))
    (takes : ∀ network' : Network Party Message Local,
      network'.locals other = network.locals other →
        (network'.channels (source, other)).head? = some message →
          Step program network' other (network'.take other source next')) :
    ∃ both, Step program (network.put party dest sent next) other both ∧
      Step program (network.take other source next') party both := by
  refine ⟨_, takes _ ?_ ?_, ?_⟩
  · exact Function.update_of_ne apart.symm ..
  · by_cases same : (source, other) = (party, dest)
    · cases same
      simp only [Network.put, Function.update_self, List.head?_append_of_ne_nil _ waiting, oldest]
    · simp only [Network.put, Function.update_of_ne same, oldest]
  · rw [Network.put_take apart waiting]
    apply puts
    exact Function.update_of_ne apart ..

/-- **Determinacy of the parties.** Two of them never compete for a step. -/
theorem conflictFree (program : ChannelProgram Party Message Local) :
    program.system.ConflictFree := by
  refine ⟨Step.deterministic, ?_⟩
  intro network first second party other apart step step'
  rcases step.puts_or_takes with ⟨dest, sent, next, rfl, puts⟩ |
    ⟨source, message, next, waiting, rfl, oldest, takes⟩
  · rcases step'.puts_or_takes with ⟨dest', sent', next', rfl, puts'⟩ |
      ⟨source', message', next', waiting', rfl, oldest', takes'⟩
    · refine ⟨_, puts' _ (Function.update_of_ne apart.symm ..), ?_⟩
      rw [Network.put_put apart]
      exact puts _ (Function.update_of_ne apart ..)
    · exact puts_takes apart waiting' oldest' puts takes'
  · rcases step'.puts_or_takes with ⟨dest', sent', next', rfl, puts'⟩ |
      ⟨source', message', next', waiting', rfl, oldest', takes'⟩
    · obtain ⟨both, later, sooner⟩ := puts_takes apart.symm waiting oldest puts' takes
      exact ⟨both, sooner, later⟩
    · have channels : (source, party) ≠ (source', other) := by
        intro same
        exact apart (congrArg Prod.snd same)
      refine ⟨_, takes' _ (Function.update_of_ne apart.symm ..) ?_, ?_⟩
      · simp only [Network.take, Function.update_of_ne channels.symm]
        exact oldest'
      · rw [Network.take_take apart]
        apply takes _ (Function.update_of_ne apart ..)
        simp only [Network.take, Function.update_of_ne channels]
        exact oldest

/-- No party goes on. -/
def Stopped (program : ChannelProgram Party Message Local)
    (network : Network Party Message Local) : Prop :=
  ∀ party, program party (network.locals party) = .stop

theorem Stopped.final (stopped : program.Stopped network) : program.system.Final network := by
  intro party after step
  cases step with
  | internal command | send command | receive command =>
      cases (stopped party).symm.trans command

end ChannelProgram

end Ympi.Foundation
