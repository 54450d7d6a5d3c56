import Ympi.Clients.Deliveries
import Ympi.Clients.Plays
import Ympi.Clients.Streams
import Ympi.Foundation.LittleEndian

/-! # The point-to-point tests

`test_ympi` lets rank 0 send to rank 1 as many messages as its send queue holds, flush, and do
the same again; rank 1 takes the messages, checks each, and gives the buffers back. Nothing
holds rank 0 back but its flushes, so its messages can wait for receive buffers. One test sends
words, one only measures, and one sends messages without bytes.
-/

namespace Ympi.Clients

open LinkedList Foundation Messaging

/-- A loop repeats the messages of its turns. -/
theorem Script.getElem?_messages_times {nprocs : ℕ} (script : Script nprocs) (dest : Fin nprocs)
    {turns index : ℕ} {message : Message}
    (listed : (Op.messages dest (script.times turns).ops)[index]? = some message) :
    (Op.messages dest script.ops)[index % (Op.messages dest script.ops).length]? = some message := by
  induction turns generalizing index with
  | zero => cases listed
  | succ turns ih =>
      rw [times, ops_append, Op.messages_append] at listed
      by_cases inside : index < (Op.messages dest script.ops).length
      · rw [List.getElem?_append_left inside] at listed
        rwa [Nat.mod_eq_of_lt inside]
      · have later := Nat.le_of_not_lt inside
        rw [List.getElem?_append_right later] at listed
        rw [Nat.mod_eq_sub_mod later]
        exact ih listed

theorem Script.mem_of_mem_times {nprocs : ℕ} {script : Script nprocs} {turns : ℕ}
    {op : Op nprocs} (member : op ∈ (script.times turns).ops) : op ∈ script.ops := by
  induction turns with
  | zero => cases member
  | succ turns ih => exact (List.mem_append.mp member).elim id ih

/-- A loop that holds no buffer between its turns takes messages as its turns do. -/
theorem Script.spares_times {nprocs : ℕ} {script : Script nprocs} (spares : Op.Spares script.ops 0)
    (ends : Op.heldAfter script.ops 0 = 0) (turns : ℕ) : Op.Spares (script.times turns).ops 0 := by
  induction turns with
  | zero => trivial
  | succ turns ih =>
      apply Op.spares_append spares
      rwa [ends]

theorem Op.spares_receives {nprocs : ℕ} {sources : List (Fin nprocs)} {held : ℕ}
    (few : held + sources.length ≤ prepostDepth) : Spares (sources.map .zrecv) held := by
  induction sources generalizing held with
  | nil => trivial
  | cons source others ih =>
      rw [List.length_cons] at few
      exact ⟨by omega, ih (by omega)⟩

theorem Script.spares_posts {nprocs : ℕ} (buffer : RdmaBuffer) (messages : List (Outgoing nprocs))
    (fits : ∀ message ∈ messages, (message.op buffer).Fits)
    (few : ∀ peer, (messages.map Outgoing.dest).count peer ≤ maxSendWrPerQp) (held : ℕ) :
    Op.Spares (posts buffer messages fits few).ops held := by
  apply Op.spares_append
  · clear fits few
    induction messages with
    | nil => trivial
    | cons message others ih => exact ih
  · trivial

namespace PointToPoint

/-- The variable `iters` of `main`. -/
def iters : ℕ := 1024

/-- `0x1111111111111111 + i` -/
def expected (i : ℕ) : ℕ := 0x1111111111111111 + i

/-- The send buffer of rank 0, with a word for each request of a batch. -/
structure Setting where
  sendBuffer : RdmaBuffer
  sendBuffer_bytes : sendBuffer.bytes = maxSendWrPerQp * 8

/-- What the messages of a batch carry: the words of the buffer, or nothing. -/
inductive Content where
  | words
  | nothing
  deriving DecidableEq, Repr

namespace Content

/-- The bytes of message `i` of a batch. -/
def payload : Content → ℕ → List UInt8
  | .words, i => bytesOf 8 (expected i)
  | .nothing, _ => []

theorem length_payload_le (content : Content) (i : ℕ) : (content.payload i).length ≤ 8 := by
  cases content with
  | words => exact (length_bytesOf 8 _).le
  | nothing => exact Nat.zero_le 8

/-- What rank 1 asserts of the length and the content of message `i` of a batch. -/
def Checks : Content → ℕ → Message → Prop
  | .words, i, message => message.length = 8 ∧ numberOf message.payload = expected i
  | .nothing, _, message => message.length = 0

/-- The word that rank 1 reads is the word that rank 0 has put in place. -/
theorem checks_payload (content : Content) {i : ℕ} (small : i < maxSendWrPerQp) :
    content.Checks i ⟨content.payload i, (content.payload i).length⟩ := by
  cases content with
  | words =>
      refine ⟨length_bytesOf 8 _, ?_⟩
      simp only [payload]
      rw [numberOf_bytesOf, Nat.mod_eq_of_lt]
      simp only [expected, maxSendWrPerQp] at small ⊢
      omega
  | nothing => rfl

end Content

section Scripts

variable (setting : Setting) (content : Content)

/-- The messages of one turn of the loop over `k`. -/
def batch : List (Outgoing 2) :=
  (List.range maxSendWrPerQp).map fun i => ⟨i * 8, content.payload i, ⟨1, Nat.one_lt_two⟩⟩

theorem dest_batch : (batch content).map Outgoing.dest = List.replicate maxSendWrPerQp 1 := by
  rw [List.eq_replicate_iff]
  refine ⟨by rw [batch, List.length_map, List.length_map, List.length_range], ?_⟩
  intro dest member
  obtain ⟨message, listed, rfl⟩ := List.mem_map.mp member
  obtain ⟨i, -, rfl⟩ := List.mem_map.mp listed
  rfl

theorem batch_fits (message : Outgoing 2) (member : message ∈ batch content) :
    (message.op setting.sendBuffer).Fits := by
  obtain ⟨i, listed, rfl⟩ := List.mem_map.mp member
  have small := List.mem_range.mp listed
  have short := content.length_payload_le i
  constructor
  · unfold Context.inBounds
    rw [setting.sendBuffer_bytes]
    refine (Nat.mod_le _ _).trans (show i * 8 + (content.payload i).length ≤ _ from ?_)
    omega
  · exact short.trans (by decide)

theorem batch_few (peer : Fin 2) :
    ((batch content).map Outgoing.dest).count peer ≤ maxSendWrPerQp := by
  rw [dest_batch]
  exact List.count_le_length.trans_eq List.length_replicate

/-- One turn of rank 0. -/
def sendBatch : Script 2 :=
  .posts setting.sendBuffer (batch content) (batch_fits setting content) (batch_few content)

/-- One turn of rank 1. -/
def receiveBatch : Script 2 :=
  .receives (List.replicate maxSendWrPerQp ⟨0, Nat.two_pos⟩) ++ .giveBack

/-- A test of `turns` turns. -/
def test (turns : ℕ) : Phase 2 := fun rank =>
  if rank.val = 0 then (sendBatch setting content).times turns else receiveBatch.times turns

/-- "Testing point-to-point correctness" -/
def correctness : Phase 2 := test setting .words iters

/-- "Benchmarking message rate" -/
def messageRate : Phase 2 := test setting .words iters

/-- "Testing point-to-point zero-bytes correctness" -/
def zeroBytes : Phase 2 := test setting .nothing 1

/-- The messages of a turn, in the order in which rank 1 takes them. -/
theorem messages_sendBatch : Op.messages 1 (sendBatch setting content).ops =
    (List.range maxSendWrPerQp).map fun i =>
      ⟨content.payload i, (content.payload i).length⟩ := by
  have sent (turns : List ℕ) : Op.messages 1
      ((turns.map fun i => (⟨i * 8, content.payload i, ⟨1, Nat.one_lt_two⟩⟩ : Outgoing 2)).map
        (Outgoing.op setting.sendBuffer)) =
      turns.map fun i => ⟨content.payload i, (content.payload i).length⟩ := by
    induction turns with
    | nil => rfl
    | cons i rest ih => simpa [Op.messages, Outgoing.op] using ih
  rw [sendBatch, Script.ops_posts, Op.messages_append, batch, sent]
  exact List.append_nil _

/-- Message `index` is number `index % 256` of its batch. -/
theorem messages_test (turns index : ℕ) {message : Message}
    (listed : (Op.messages 1 (test setting content turns 0).ops)[index]? = some message) :
    content.Checks (index % maxSendWrPerQp) message := by
  have inside := Script.getElem?_messages_times (sendBatch setting content) 1 listed
  rw [messages_sendBatch, List.length_map, List.length_range, List.getElem?_map] at inside
  obtain ⟨i, place, rfl⟩ := Option.map_eq_some_iff.mp inside
  obtain ⟨small, rfl⟩ := List.getElem?_eq_some_iff.mp place
  rw [List.getElem_range]
  exact content.checks_payload (Nat.mod_lt _ (by decide))

end Scripts

/-- **The checks hold.** In every reached state of a test all messages that rank 1 has taken are
what it asserts, however the ranks, their HCAs and the network interleave. -/
theorem test_checks (setting : Setting) (content : Content) (turns : ℕ) (held : Fin 2 → ℕ)
    {labels : List (Label 2)} {state : State 2 (Script 2)}
    (reached : ((Script.client 2).system (test setting content turns) held).Reaches labels state)
    (index : ℕ) {message : Message}
    (taken : (Script.takenFrom 0 ((nodeHistory 1 labels).flatMap takenBy))[index]? =
      some message) : content.Checks (index % maxSendWrPerQp) message := by
  rw [Script.received_eq_take _ held reached 0 1] at taken
  apply messages_test setting content turns index
  rw [List.getElem?_take] at taken
  split at taken
  · exact taken
  · cases taken

section Counts

variable (setting : Setting) (content : Content) (turns : ℕ) (peer : Fin 2)

theorem sendsTo_sendBatch : Op.sendsTo peer (sendBatch setting content).ops =
    if peer.val = 0 then 0 else maxSendWrPerQp := by
  rw [sendBatch, Script.sendsTo_posts, dest_batch, List.count_replicate]
  match peer with
  | 0 => rfl
  | 1 => rfl

theorem receivesFrom_sendBatch : Op.receivesFrom peer (sendBatch setting content).ops = 0 :=
  Script.receivesFrom_posts ..

theorem sendsTo_receiveBatch : Op.sendsTo peer receiveBatch.ops = 0 := by
  rw [receiveBatch, Script.ops_append, Op.sendsTo_append, Script.ops_receives,
    Script.sendsTo_receives]
  rfl

theorem receivesFrom_receiveBatch : Op.receivesFrom peer receiveBatch.ops =
    if peer.val = 0 then maxSendWrPerQp else 0 := by
  rw [receiveBatch, Script.ops_append, Op.receivesFrom_append, Script.ops_receives,
    Script.receivesFrom_receives, List.count_replicate]
  match peer with
  | 0 => rfl
  | 1 => rfl

/-- Rank 1 is the one that receives, and it receives from rank 0. -/
theorem receives_test {rank : Fin 2} (member : .zrecv peer ∈ (test setting content turns rank).ops) :
    rank.val ≠ 0 ∧ peer = 0 := by
  unfold test at member
  split at member
  next =>
    have inside := Script.mem_of_mem_times member
    simp [sendBatch, Script.ops_posts, Outgoing.op] at inside
  next apart =>
    refine ⟨apart, ?_⟩
    rcases List.mem_append.mp (Script.mem_of_mem_times member) with received | gave
    · obtain ⟨source, listed, same⟩ := List.mem_map.mp received
      cases same
      exact List.eq_of_mem_replicate listed
    · cases List.mem_singleton.mp gave

end Counts

/-- The messages go one way. -/
theorem oneWay_test (setting : Setting) (content : Content) (turns : ℕ) :
    OneWay (test setting content turns) fun _ => 0 := by
  refine ⟨?_, ?_, ?_, ?_⟩
  · intro rank source other member member'
    rw [(receives_test _ _ _ _ member).2, (receives_test _ _ _ _ member').2]
  · intro rank source dest member
    rw [test, if_neg (receives_test _ _ _ _ member).1, Script.sendsTo_times, sendsTo_receiveBatch,
      Nat.mul_zero]
  · intro source dest
    unfold test
    split <;> split
    all_goals
      rw [Script.sendsTo_times, Script.receivesFrom_times]
      simp_all [sendsTo_sendBatch, receivesFrom_sendBatch, sendsTo_receiveBatch,
        receivesFrom_receiveBatch]
  · intro rank
    unfold test
    split
    · apply Script.spares_times
      · exact Script.spares_posts ..
      · exact Script.heldAfter_posts ..
    · apply Script.spares_times
      · have few : 0 + (List.replicate maxSendWrPerQp (0 : Fin 2)).length ≤ prepostDepth := by
          rw [List.length_replicate]
          decide
        rw [receiveBatch, Script.ops_append, Script.ops_receives, Script.ops_giveBack]
        apply Op.spares_append (Op.spares_receives few)
        rw [Op.Spares]
        trivial
      · rw [receiveBatch, Script.ops_append, Op.heldAfter_append]
        rfl

/-- **The tests come to their ends.** -/
theorem test_can_finish (setting : Setting) (content : Content) (turns : ℕ)
    {labels : List (Label 2)} {state : State 2 (Script 2)}
    (reached : ((Script.client 2).system (test setting content turns) fun _ => 0).Reaches labels
      state) :
    ∃ more after, ((Script.client 2).careful (test setting content turns) fun _ => 0).Execution
      state more after ∧ (Script.client 2).Finished after :=
  (oneWay_test setting content turns).finishes reached

/-- A send buffer. -/
def sender : Setting where
  sendBuffer := ⟨4096, maxSendWrPerQp * 8, ⟨4096, maxSendWrPerQp * 8, 1, 1, true, true⟩⟩
  sendBuffer_bytes := rfl

/-- A run of the test to its end that leaves the bytes of its requests alone. -/
theorem exists_finished : ∃ labels state,
    ((Script.client 2).careful (correctness sender) fun _ => 0).Reaches labels state ∧
      (Script.client 2).Finished state := by
  obtain ⟨state, initial⟩ := (Script.client 2).exists_initial (correctness sender) (by decide)
  obtain ⟨more, after, execution, finished⟩ := test_can_finish sender .words iters
    (.initial initial)
  exact ⟨more, after, ⟨state, initial, execution⟩, finished⟩

/-- At the end of a test rank 1 has taken all messages. -/
theorem length_taken (setting : Setting) (content : Content) (turns : ℕ) (held : Fin 2 → ℕ)
    {labels : List (Label 2)} {state : State 2 (Script 2)}
    (reached : ((Script.client 2).system (test setting content turns) held).Reaches labels state)
    (finished : (Script.client 2).Finished state) :
    (Script.takenFrom 0 ((nodeHistory 1 labels).flatMap takenBy)).length =
      turns * maxSendWrPerQp := by
  have ended : (state.locals 1).ops = [] := Script.command_eq_stop.mp (finished.stopped 1)
  have sent : Op.sendsTo 1 (test setting content turns 0).ops = turns * maxSendWrPerQp :=
    (Script.sendsTo_times 1 _ turns).trans
      (congrArg (turns * ·) (sendsTo_sendBatch setting content 1))
  have received : Op.receivesFrom 0 (test setting content turns 1).ops = turns * maxSendWrPerQp :=
    (Script.receivesFrom_times 0 _ turns).trans
      (congrArg (turns * ·) (receivesFrom_receiveBatch 0))
  rw [Script.received_eq_take _ held reached 0 1, List.length_take, Op.length_messages, ended, sent,
    received]
  exact min_self _

/-- **The point-to-point tests pass.** In every reached state what rank 1 has taken is what it
asserts, and the test can still come to its end. -/
theorem tests_pass (setting : Setting) (content : Content) (turns : ℕ)
    {labels : List (Label 2)} {state : State 2 (Script 2)}
    (reached : ((Script.client 2).system (test setting content turns) fun _ => 0).Reaches labels
      state) :
    (∀ index message, (Script.takenFrom 0 ((nodeHistory 1 labels).flatMap takenBy))[index]? =
      some message → content.Checks (index % maxSendWrPerQp) message) ∧
    ∃ more after, ((Script.client 2).system (test setting content turns) fun _ => 0).Execution
      state more after ∧ (Script.client 2).Finished after := by
  refine ⟨fun index _ taken => test_checks setting content turns _ reached index taken, ?_⟩
  obtain ⟨more, after, execution, finished⟩ := test_can_finish setting content turns reached
  exact ⟨more, after, execution.of_restrict, finished⟩

/-- In a run of the test to its end rank 1 has taken all messages, and they are what it asserts. -/
theorem tests_pass_finished : ∃ labels state,
    ((Script.client 2).system (correctness sender) fun _ => 0).Reaches labels state ∧
      (Script.client 2).Finished state ∧
      (Script.takenFrom 0 ((nodeHistory 1 labels).flatMap takenBy)).length =
        iters * maxSendWrPerQp ∧
      ∀ index message, (Script.takenFrom 0 ((nodeHistory 1 labels).flatMap takenBy))[index]? =
        some message → Content.words.Checks (index % maxSendWrPerQp) message := by
  obtain ⟨labels, state, reached, finished⟩ := exists_finished
  refine ⟨labels, state, reached.of_restrict, finished, ?_, ?_⟩
  · exact length_taken sender .words iters _ reached.of_restrict finished
  · exact (tests_pass sender .words iters reached.of_restrict).1

end PointToPoint

end Ympi.Clients
