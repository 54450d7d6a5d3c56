import Ympi.Clients.Client

/-! # Scripts

A program whose calls do not depend on what it receives is a list of calls. A script carries
the proof that its messages fit and that it flushes before a send queue is full.
-/

namespace Ympi.Clients

open LinkedList Foundation Messaging

variable {nprocs : ℕ}

/-- A call of the messaging library with its arguments. -/
inductive Op (nprocs : ℕ) where
  | zsend (buffer : RdmaBuffer) (offset : ℕ) (payload : List UInt8) (dest : Fin nprocs)
  | zflush
  | zrecv (source : Fin nprocs)
  | giveBack
  deriving DecidableEq, Repr

namespace Op

/-- A message lies in its buffer and fits into a receive buffer. -/
def Fits : Op nprocs → Prop
  | .zsend buffer offset payload _ =>
      Context.inBounds buffer offset payload.length ∧ payload.length ≤ vbufBytes
  | _ => True

/-- The call sends to `peer`. -/
def SendsTo (peer : Fin nprocs) : Op nprocs → Prop
  | .zsend _ _ _ dest => dest = peer
  | _ => False

/-- The requests to `peer` that come before the next flush; a script that ends unflushed has
more than a send queue holds. -/
def ahead (peer : Fin nprocs) : List (Op nprocs) → ℕ
  | [] => maxSendWrPerQp
  | .zsend _ _ _ dest :: rest => ahead peer rest + if peer = dest then 1 else 0
  | .zflush :: _ => 0
  | .zrecv _ :: rest => ahead peer rest
  | .giveBack :: rest => ahead peer rest

theorem suffix_or_exists_of_suffix_append {rest front back : List (Op nprocs)}
    (suffix : rest <:+ front ++ back) :
    rest <:+ back ∨ ∃ start, start <:+ front ∧ rest = start ++ back := by
  obtain ⟨before, whole⟩ := suffix
  rcases List.append_eq_append_iff.mp whole with ⟨start, early, late⟩ | ⟨more, early, late⟩
  · exact .inr ⟨start, ⟨before, early.symm⟩, late⟩
  · exact .inl ⟨more, late.symm⟩

/-- What comes after a script that flushes comes after its last flush. -/
theorem ahead_append_le {peer : Fin nprocs} {back : List (Op nprocs)}
    (room : ahead peer back ≤ maxSendWrPerQp) (front : List (Op nprocs)) :
    ahead peer (front ++ back) ≤ ahead peer front := by
  induction front with
  | nil => exact room
  | cons op rest ih =>
      cases op with
      | zsend => exact Nat.add_le_add_right ih _
      | zflush => exact le_rfl
      | zrecv | giveBack => exact ih

end Op

/-- A message that a process is going to send. -/
structure Outgoing (nprocs : ℕ) where
  offset : ℕ
  payload : List UInt8
  dest : Fin nprocs
  deriving DecidableEq, Repr

namespace Outgoing

/-- The call that sends the message. -/
def op (buffer : RdmaBuffer) (message : Outgoing nprocs) : Op nprocs :=
  .zsend buffer message.offset message.payload message.dest

/-- The messages to `peer` come before the requests to it that follow. -/
theorem ahead_append (peer : Fin nprocs) (buffer : RdmaBuffer) (messages : List (Outgoing nprocs))
    (rest : List (Op nprocs)) : Op.ahead peer (messages.map (op buffer) ++ rest) =
      Op.ahead peer rest + (messages.map dest).count peer := by
  induction messages with
  | nil => rfl
  | cons message others ih =>
      rw [List.map_cons, List.map_cons, List.cons_append, op, Op.ahead, ih, List.count_cons]
      by_cases same : message.dest = peer
      · rw [if_pos same.symm, if_pos (beq_iff_eq.mpr same), Nat.add_assoc]
      · rw [if_neg (Ne.symm same), if_neg (mt beq_iff_eq.mp same), Nat.add_assoc]

end Outgoing

/-- The calls that a process has still to make. -/
@[ext]
structure Script (nprocs : ℕ) where
  ops : List (Op nprocs)
  fits : ∀ op ∈ ops, op.Fits
  room : ∀ rest, rest <:+ ops → ∀ peer, Op.ahead peer rest ≤ maxSendWrPerQp

namespace Script

/-- The script without its first call. -/
def tail (script : Script nprocs) : Script nprocs where
  ops := script.ops.tail
  fits op member := script.fits op (List.mem_of_mem_tail member)
  room rest suffix := script.room rest (suffix.trans (List.tail_suffix script.ops))

/-- The script of a process that is done. -/
def done : Script nprocs where
  ops := []
  fits op member := absurd member List.not_mem_nil
  room rest suffix peer := by
    rw [List.suffix_nil.mp suffix]
    exact le_rfl

/-- One script after the other. -/
instance : Append (Script nprocs) where
  append front back := {
    ops := front.ops ++ back.ops
    fits := fun op member => (List.mem_append.mp member).elim (front.fits op) (back.fits op)
    room := by
      intro rest suffix peer
      rcases Op.suffix_or_exists_of_suffix_append suffix with inside | ⟨start, begins, rfl⟩
      · exact back.room rest inside peer
      · have bounded := back.room back.ops List.suffix_rfl peer
        exact (Op.ahead_append_le bounded start).trans (front.room start begins peer) }

@[simp] theorem ops_append (front back : Script nprocs) :
    (front ++ back).ops = front.ops ++ back.ops := rfl

/-- The turns of a loop. -/
def times (script : Script nprocs) : ℕ → Script nprocs
  | 0 => done
  | turns + 1 => script ++ script.times turns

/-- `YMPI_Zrecv` of a message of each of the sources. -/
def receives (sources : List (Fin nprocs)) : Script nprocs where
  ops := sources.map .zrecv
  fits op member := by
    obtain ⟨source, -, rfl⟩ := List.mem_map.mp member
    trivial
  room rest suffix peer := by
    obtain ⟨sources', -, rfl⟩ := List.suffix_map_iff.mp suffix
    clear suffix
    induction sources' with
    | nil => exact le_rfl
    | cons source others ih => exact ih

/-- `YMPI_Return` -/
def giveBack : Script nprocs where
  ops := [.giveBack]
  fits op member := by
    rw [List.mem_singleton.mp member]
    trivial
  room rest suffix peer := by
    rcases List.suffix_cons_iff.mp suffix with rfl | inside
    · exact le_rfl
    · rw [List.suffix_nil.mp inside]
      exact le_rfl

/-- `YMPI_Zflush` -/
def flush : Script nprocs where
  ops := [.zflush]
  fits op member := by
    rw [List.mem_singleton.mp member]
    trivial
  room rest suffix peer := by
    rcases List.suffix_cons_iff.mp suffix with rfl | inside
    · exact Nat.zero_le _
    · rw [List.suffix_nil.mp inside]
      exact le_rfl

/-- `YMPI_Zsend` of each of the messages before a script that flushes soon enough. -/
def sendsThen (buffer : RdmaBuffer) (messages : List (Outgoing nprocs)) (script : Script nprocs)
    (fits : ∀ message ∈ messages, (message.op buffer).Fits)
    (few : ∀ peer, Op.ahead peer script.ops + (messages.map Outgoing.dest).count peer ≤
      maxSendWrPerQp) : Script nprocs where
  ops := messages.map (Outgoing.op buffer) ++ script.ops
  fits op member := by
    rcases List.mem_append.mp member with sent | later
    · obtain ⟨message, listed, rfl⟩ := List.mem_map.mp sent
      exact fits message listed
    · exact script.fits op later
  room rest suffix peer := by
    rcases Op.suffix_or_exists_of_suffix_append suffix with inside | ⟨start, begins, rfl⟩
    · exact script.room rest inside peer
    · obtain ⟨messages', ends, rfl⟩ := List.suffix_map_iff.mp begins
      rw [Outgoing.ahead_append]
      have fewer := (ends.sublist.map Outgoing.dest).count_le peer
      exact (Nat.add_le_add_left fewer _).trans (few peer)

/-- `YMPI_Zsend` of each of the messages, and `YMPI_Zflush`. -/
def posts (buffer : RdmaBuffer) (messages : List (Outgoing nprocs))
    (fits : ∀ message ∈ messages, (message.op buffer).Fits)
    (few : ∀ peer, (messages.map Outgoing.dest).count peer ≤ maxSendWrPerQp) : Script nprocs :=
  sendsThen buffer messages flush fits fun peer => (Nat.zero_add _).trans_le (few peer)

/-- A message to each of the destinations by `YMPI_Zsend`, and `YMPI_Zflush`. -/
def sends (buffer : RdmaBuffer) (offset : Fin nprocs → ℕ) (payload : List UInt8)
    (dests : List (Fin nprocs))
    (inBounds : ∀ dest ∈ dests, Context.inBounds buffer (offset dest) payload.length)
    (small : payload.length ≤ vbufBytes) (distinct : dests.Nodup) : Script nprocs :=
  posts buffer (dests.map fun dest => ⟨offset dest, payload, dest⟩)
    (by
      intro message member
      obtain ⟨dest, listed, rfl⟩ := List.mem_map.mp member
      exact ⟨inBounds dest listed, small⟩)
    (by
      intro peer
      rw [List.map_map]
      have same : (dests.map (Outgoing.dest ∘ fun dest => ⟨offset dest, payload, dest⟩)) = dests :=
        List.map_id dests
      rw [same]
      exact (List.nodup_iff_count_le_one.mp distinct peer).trans (by decide))

/-- The next call of a script. -/
def command (script : Script nprocs) : Command nprocs (Script nprocs) :=
  match script.ops with
  | [] => .stop
  | .zsend buffer offset payload dest :: _ => .zsend buffer offset payload dest script.tail
  | .zflush :: _ => .zflush script.tail
  | .zrecv source :: _ => .zrecv source fun _ => script.tail
  | .giveBack :: _ => .giveBack script.tail

section Command

variable {script : Script nprocs}

theorem command_eq_zsend {buffer : RdmaBuffer} {offset : ℕ} {payload : List UInt8}
    {dest : Fin nprocs} {next : Script nprocs}
    (named : script.command = .zsend buffer offset payload dest next) :
    script.ops = .zsend buffer offset payload dest :: script.ops.tail ∧ next = script.tail := by
  unfold command at named
  split at named <;> cases named
  next listed => exact ⟨by rw [listed]; rfl, rfl⟩

/-- The next message of a script fits. -/
theorem zsend_fits {buffer : RdmaBuffer} {offset : ℕ} {payload : List UInt8} {dest : Fin nprocs}
    {next : Script nprocs} (named : script.command = .zsend buffer offset payload dest next) :
    Context.inBounds buffer offset payload.length ∧ payload.length ≤ vbufBytes := by
  have listed := (command_eq_zsend named).1
  have member : .zsend buffer offset payload dest ∈ script.ops := by
    rw [listed]
    exact List.mem_cons_self
  exact script.fits _ member

theorem command_eq_zflush {next : Script nprocs} (named : script.command = .zflush next) :
    script.ops = .zflush :: script.ops.tail ∧ next = script.tail := by
  unfold command at named
  split at named <;> cases named
  next listed => exact ⟨by rw [listed]; rfl, rfl⟩

theorem command_eq_zrecv {source : Fin nprocs} {next : Message → Script nprocs}
    (named : script.command = .zrecv source next) :
    script.ops = .zrecv source :: script.ops.tail ∧ next = fun _ => script.tail := by
  unfold command at named
  split at named <;> cases named
  next listed => exact ⟨by rw [listed]; rfl, rfl⟩

theorem command_eq_giveBack {next : Script nprocs} (named : script.command = .giveBack next) :
    script.ops = .giveBack :: script.ops.tail ∧ next = script.tail := by
  unfold command at named
  split at named <;> cases named
  next listed => exact ⟨by rw [listed]; rfl, rfl⟩

/-- A script goes on with the script without its first call. -/
theorem command_next {next : Script nprocs} (goesOn : script.command.Next next) :
    next = script.tail := by
  generalize named : script.command = command at goesOn
  cases goesOn with
  | zsend => exact (command_eq_zsend named).2
  | zflush => exact (command_eq_zflush named).2
  | zrecv message => rw [(command_eq_zrecv named).2]
  | giveBack => exact (command_eq_giveBack named).2

theorem command_eq_stop : script.command = .stop ↔ script.ops = [] := by
  unfold command
  split <;> simp_all

end Command

/-- Every rank runs its script. -/
def client (nprocs : ℕ) : Client nprocs (Script nprocs) where
  command _ script := script.command
  peers _ script peer := ∃ op ∈ script.ops, op.SendsTo peer
  peers_zsend {_ script} buffer offset payload dest _ named := by
    refine ⟨.zsend buffer offset payload dest, ?_, rfl⟩
    rw [(command_eq_zsend named).1]
    exact List.mem_cons_self
  peers_next {_ script _} goesOn peer sends := by
    obtain ⟨op, member, sendsTo⟩ := sends
    rw [command_next goesOn] at member
    exact ⟨op, List.mem_of_mem_tail member, sendsTo⟩
  ahead _ script peer := Op.ahead peer script.ops
  inBounds named := (zsend_fits named).1
  fits named := (zsend_fits named).2
  ahead_le _ script peer := script.room script.ops List.suffix_rfl peer
  ahead_zsend {_ script} _ _ _ _ _ named peer := by
    obtain ⟨listed, rfl⟩ := command_eq_zsend named
    rw [listed]
    exact le_rfl
  ahead_zrecv {_ script} _ _ named message peer := by
    obtain ⟨listed, rfl⟩ := command_eq_zrecv named
    rw [listed]
    exact le_rfl
  ahead_giveBack {_ script} _ named peer := by
    obtain ⟨listed, rfl⟩ := command_eq_giveBack named
    rw [listed]
    exact le_rfl
  ahead_stop {_ script} named peer := by
    rw [command_eq_stop.mp named]
    rfl

end Script

/-- Ranks that have been through `YMPI_Init`, with whatever queue pairs, memories and
registrations, are at rest. -/
theorem exists_rested (tables : Fin nprocs → QpTable nprocs) (mems : Fin nprocs → ℕ → UInt8)
    (mrs : Fin nprocs → List Mr) :
    ∃ setup cluster, Rested (fun _ => 0) setup (cluster : Cluster nprocs) ∧
      ∀ rank, (cluster rank).ctx.qps = tables rank ∧ (cluster rank).mem = mems rank ∧
        (cluster rank).mrs = mrs rank := by
  obtain ⟨setup, cluster, reached, returning, started⟩ :=
    Cluster.exists_started_with tables mems mrs
  have returned (rank : Fin nprocs) (action : Action nprocs)
      (member : action ∈ nodeHistory rank setup) : action.isReturn = true := by
    obtain ⟨label, listed, taken⟩ := List.mem_flatMap.mp member
    have own := returning label listed
    cases label with
    | act actor step =>
        simp only [Label.actionsOf, List.mem_ite_nil_right, List.mem_singleton] at taken
        obtain ⟨-, rfl⟩ := taken
        exact own
    | _ => cases own
  refine ⟨setup, cluster, ⟨reached, ?_, ?_, ?_, ?_, ?_, ?_, ?_⟩, fun rank => (started rank).2⟩
  · intro rank action member
    have own := returned rank action member
    cases action with
    | post => cases own
    | _ => trivial
  · intro rank wr member
    cases returned rank _ member
  · intro rank
    exact ⟨0, (started rank).1.pc_eq⟩
  · intro rank peer
    have counted := Node.reaches_qpPending (reaches_node reached rank) peer
    rw [(started rank).1.qpPending_eq peer] at counted
    exact Int.natCast_eq_zero.mp counted.symm
  · intro rank
    exact (started rank).1.cq_eq
  · intro rank source
    exact (started rank).1.pending_eq source
  · intro rank
    rw [(started rank).1.fetched_eq]
    rfl

/-- Fully connected ranks that have been through `YMPI_Init` can start any programs. -/
theorem Client.exists_initial {σ : Type} (client : Client nprocs σ) (start : Fin nprocs → σ)
    (small : nprocs ≤ qpnHashSize) : ∃ state, client.Initial start (fun _ => 0) state := by
  obtain ⟨setup, cluster, rested, kept⟩ :=
    exists_rested (fun _ => QpTable.direct nprocs small) (fun _ _ => 0) fun _ => []
  have connected (rank peer : Fin nprocs) : (cluster rank).ctx.qps.qpList peer ≠ none := by
    rw [(kept rank).1]
    exact Option.some_ne_none _
  exact ⟨⟨cluster, start⟩, ⟨setup, rested⟩, rfl, fun rank peer _ =>
    ⟨connected rank peer, connected peer rank⟩⟩

end Ympi.Clients
