import Ympi.Messaging.Shape

/-! # Runs that exist

The runs constructed here show what the library does when nothing fails: a process
posts all buffers that it was given back, posts requests, and takes completions, and
processes start together, send messages to each other and see their writes complete.
-/

namespace Ympi.Messaging

open LinkedList Foundation

variable {nprocs : ℕ}

/-- The table of a fully connected process that numbers each queue pair by its peer. -/
def QpTable.direct (nprocs : ℕ) (small : nprocs ≤ qpnHashSize) : QpTable nprocs where
  arch := .x86_64
  qpList peer := some peer
  qpRank qpNum := qpNum
  rank_eq peer qpNum listed := by
    cases listed
    have same : peer.val % qpnHashSize = peer.val :=
      Nat.mod_eq_of_lt (lt_of_lt_of_le peer.isLt small)
    rw [qpnRank]
    simp only [same]
    exact if_pos (Int.natCast_nonneg _)

/-- A step of a `YMPID_Return` whose posts succeed. -/
def Action.isReturn : Action nprocs → Bool
  | .repost _ posted => posted
  | .returned => true
  | _ => false

theorem Action.isReturn_local {action : Action nprocs} (returns : action.isReturn = true) :
    action.isNetwork = false := by
  cases action with
  | repost => rfl
  | returned => rfl
  | _ => cases returns

def Label.isReturn : Label nprocs → Bool
  | .act _ action => action.isReturn
  | _ => false

/-- A `YMPI_Write` of no bytes to `dest`. -/
def emptyWrite (dest : Fin nprocs) : PostCall nprocs :=
  .write ⟨0, 0, ⟨0, 0, 0, 0, false, false⟩⟩ 0 0 dest 0 0

theorem emptyWrite_inBounds {dest : Fin nprocs} : (emptyWrite dest).InBounds :=
  Nat.le_refl 0

/-- A `YMPI_Zsend` of no bytes to `dest`. -/
def emptySend (dest : Fin nprocs) : PostCall nprocs :=
  .zsend ⟨0, 0, ⟨0, 0, 0, 0, false, false⟩⟩ 0 0 dest

theorem emptySend_inBounds {dest : Fin nprocs} : (emptySend dest).InBounds :=
  Nat.le_refl 0

/-- A request of `emptySend` in the send queue. -/
def emptyMessage (ctx : Context nprocs) (dest : Fin nprocs) : Posted :=
  ⟨(emptySend dest).wr ctx, []⟩

namespace Node

/-- There is a process about to start with given queue pairs and memory. -/
theorem exists_initial (qps : QpTable nprocs) (mem : ℕ → UInt8) (mrs : List Mr) :
    ∃ node : Node nprocs, node.Initial ∧ node.ctx.qps = qps ∧ node.mem = mem ∧
      node.mrs = mrs := by
  obtain ⟨ctx, performed⟩ := Context.create_ok qps 0 0 (fun _ _ => ⟨0, none⟩) fun _ => ⟨0, none⟩
  have listed := (Context.create_eq_ok performed).2
  refine ⟨⟨ctx, .returning, [], [], fun _ => [], fun _ => [], mem, mrs⟩, ?_, listed, rfl, rfl⟩
  rw [← listed] at performed
  exact ⟨⟨0, 0, _, _, performed⟩, rfl, rfl, rfl, fun _ => rfl, fun _ => rfl⟩

/-- The steps of `YMPID_Return` when every post succeeds. -/
def returnActions (ctx : Context nprocs) (ids : List Int) : List (Action nprocs) :=
  ids.map (fun id => .repost (ctx.recvRequest id) true) ++ [.returned]

/-- `YMPID_Return` posts all buffers handed out, oldest first, and ends. -/
theorem return_run {ids : List Int} (given : -1 ∉ ids) {node : Node nprocs}
    (atReturn : node.pc = .returning) (stored : node.fetchedIds = ids) :
    ∃ queue : PooledQueue Int prepostDepth, queue.contents = [] ∧
      (system nprocs).Execution node (returnActions node.ctx ids)
        { node with
          ctx := node.ctx.withFetched queue
          pc := .idle 0
          srq := node.srq ++ ids.map node.ctx.recvRequest } := by
  induction ids generalizing node with
  | nil =>
      refine ⟨node.ctx.rxWin.vbufFetched, stored, ?_⟩
      have ended := Step.returned atReturn (Context.returnHead_nil stored)
      rw [List.map_nil, List.append_nil]
      exact .single ended
  | cons id rest ih =>
      obtain ⟨first, others⟩ := not_or.mp (fun either => given (List.mem_cons.mpr either))
      obtain ⟨queue, left, performed⟩ := Context.returnHead_cons (Ne.symm first) stored
      obtain ⟨last, empty, run⟩ := @ih others
        { node with
          ctx := node.ctx.withFetched queue
          srq := node.srq ++ [node.ctx.recvRequest id] } atReturn left
      refine ⟨last, empty, ?_⟩
      have whole := LabelledSystem.Execution.cons (Step.repost atReturn performed) run
      rw [List.append_assoc] at whole
      exact whole

/-- A process that has been through `YMPI_Init` and has not communicated yet. -/
structure Started (node : Node nprocs) : Prop where
  pc_eq : node.pc = .idle 0
  srq_eq : node.srq = ((List.range prepostDepth).map Int.ofNat).map node.ctx.recvRequest
  cq_eq : node.cq = []
  sendQueue_eq : ∀ peer, node.sendQueue peer = []
  executed_eq : ∀ peer, node.executed peer = []
  pending_eq : ∀ source, node.pending source = []
  fetched_eq : node.fetchedIds = []
  qpPending_eq : ∀ peer, node.ctx.qpPendingSendWr peer = 0
  total_eq : node.ctx.pendingSendWr = 0

/-- What the application does with its memory does not matter. -/
theorem Started.withMemory {node : Node nprocs} (started : node.Started) (mem : ℕ → UInt8)
    (mrs : List Mr) : ({ node with mem := mem, mrs := mrs } : Node nprocs).Started :=
  ⟨started.pc_eq, started.srq_eq, started.cq_eq, started.sendQueue_eq, started.executed_eq,
    started.pending_eq, started.fetched_eq, started.qpPending_eq, started.total_eq⟩

/-- The steps of the first `YMPID_Return` of a process. -/
def startupActions (ctx : Context nprocs) : List (Action nprocs) :=
  returnActions ctx ((List.range prepostDepth).map Int.ofNat)

/-- The first `YMPID_Return` of a process leaves it started. -/
theorem startup {node : Node nprocs} (initial : node.Initial) :
    ∃ started, (system nprocs).Execution node (startupActions node.ctx) started ∧
      started.Started ∧ started.ctx.qps = node.ctx.qps ∧ started.mem = node.mem ∧
      started.mrs = node.mrs := by
  have proper : -1 ∉ (List.range prepostDepth).map Int.ofNat := by
    rw [← initial.fresh.fetched]
    exact initial.proper.minusOne_fetched
  obtain ⟨queue, empty, run⟩ := return_run proper initial.pc_eq initial.fresh.fetched
  refine ⟨_, run, ?_, rfl, rfl, rfl⟩
  have fresh := initial.fresh
  refine ⟨rfl, ?_, initial.cq_eq, initial.sendQueue_eq, initial.executed_eq, fresh.pending,
    empty, fresh.qpPending, fresh.total⟩
  rw [initial.srq_eq, List.nil_append]
  rfl

theorem returnActions_isReturn (ctx : Context nprocs) (ids : List Int) {action : Action nprocs}
    (member : action ∈ returnActions ctx ids) : action.isReturn = true := by
  rcases List.mem_append.mp member with reposted | ended
  · obtain ⟨id, -, rfl⟩ := List.mem_map.mp reposted
    rfl
  · rw [List.mem_singleton.mp ended]
    rfl

/-- An idle process can post over any existing queue pair. -/
theorem exists_post {node : Node nprocs} {ret : Int} {dest : Fin nprocs}
    (idle : node.pc = .idle ret) (present : node.ctx.qps.qpList dest ≠ none) :
    ∃ node', Step node (.post (emptyWrite dest) .accepted []) node' := by
  have performed := PostCall.perform_ok emptyWrite_inBounds
    (show node.ctx.qps.qpList (emptyWrite dest).dest ≠ none from present)
  exact ⟨_, Step.postAccepted idle performed⟩

/-- A request of `emptyWrite` in the send queue. -/
def emptyPosted (ctx : Context nprocs) (dest : Fin nprocs) : Posted :=
  ⟨(emptyWrite dest).wr ctx, []⟩

/-- Below the limit of the queue pair, a post of an idle process returns at once. -/
theorem post_below {node : Node nprocs} {dest : Fin nprocs} (idle : node.pc = .idle 0)
    (present : node.ctx.qps.qpList dest ≠ none)
    (below : node.ctx.qpPendingSendWr dest + 1 < maxSendWrPerQp) :
    Step node (.post (emptyWrite dest) .accepted []) { node with
      ctx := node.ctx.incPending dest
      sendQueue := Function.update node.sendQueue dest
        (node.sendQueue dest ++ [emptyPosted node.ctx dest]) } := by
  have performed := PostCall.perform_ok emptyWrite_inBounds
    (show node.ctx.qps.qpList (emptyWrite dest).dest ≠ none from present)
  have other : ¬ node.ctx.qpPendingSendWr (emptyWrite dest).dest + 1 = maxSendWrPerQp := by
    change ¬ node.ctx.qpPendingSendWr dest + 1 = maxSendWrPerQp
    omega
  rw [if_neg other, ← idle] at performed
  exact Step.postAccepted idle performed

/-- Any number of posts below the limit of the queue pair return at once. -/
theorem posts_run {dest : Fin nprocs} (count : ℕ) {node : Node nprocs} (idle : node.pc = .idle 0)
    (present : node.ctx.qps.qpList dest ≠ none)
    (room : node.ctx.qpPendingSendWr dest + count < maxSendWrPerQp) :
    ∃ ctx, (system nprocs).Execution node
        (List.replicate count (.post (emptyWrite dest) .accepted []))
        { node with
          ctx := ctx
          sendQueue := Function.update node.sendQueue dest
            (node.sendQueue dest ++ List.replicate count (emptyPosted node.ctx dest)) } ∧
      ctx.qpPendingSendWr dest = node.ctx.qpPendingSendWr dest + count ∧
      ctx.qps = node.ctx.qps ∧ ctx.rxWin = node.ctx.rxWin ∧
      ctx.maxInlineData = node.ctx.maxInlineData := by
  induction count generalizing node with
  | zero =>
      refine ⟨node.ctx, ?_, by simp, rfl, rfl, rfl⟩
      rw [List.replicate_zero, List.replicate_zero, List.append_nil, Function.update_eq_self]
      exact .refl node
  | succ count ih =>
      let posted : Node nprocs := { node with
        ctx := node.ctx.incPending dest
        sendQueue := Function.update node.sendQueue dest
          (node.sendQueue dest ++ [emptyPosted node.ctx dest]) }
      have first : Step node (.post (emptyWrite dest) .accepted []) posted :=
        post_below idle present (by omega)
      have counted : posted.ctx.qpPendingSendWr dest = node.ctx.qpPendingSendWr dest + 1 :=
        node.ctx.incPending_self dest
      obtain ⟨ctx, run, total, same⟩ := @ih posted idle present (by omega)
      refine ⟨ctx, ?_, by omega, same⟩
      have queue : posted.sendQueue dest = node.sendQueue dest ++ [emptyPosted node.ctx dest] :=
        Function.update_self ..
      rw [queue, Function.update_idem, List.append_assoc, List.singleton_append] at run
      exact .cons first run

/-- The post that fills the send queue of a queue pair enters the throttle loop. -/
theorem fill_run {dest : Fin nprocs} {node : Node nprocs} (idle : node.pc = .idle 0)
    (present : node.ctx.qps.qpList dest ≠ none) (unused : node.ctx.qpPendingSendWr dest = 0) :
    ∃ ctx, (system nprocs).Execution node
        (List.replicate maxSendWrPerQp (.post (emptyWrite dest) .accepted []))
        { node with
          ctx := ctx
          pc := .head (.throttle dest)
          sendQueue := Function.update node.sendQueue dest
            (node.sendQueue dest ++ List.replicate maxSendWrPerQp (emptyPosted node.ctx dest)) } ∧
      ctx.qpPendingSendWr dest = maxSendWrPerQp ∧ ctx.qps = node.ctx.qps ∧
      ctx.rxWin = node.ctx.rxWin := by
  have full : maxSendWrPerQp = 255 + 1 := rfl
  obtain ⟨ctx, run, total, qps, rxWin, inlined⟩ := posts_run 255 idle present (by omega)
  have performed := PostCall.perform_ok emptyWrite_inBounds
    (show ctx.qps.qpList (emptyWrite dest).dest ≠ none by rw [qps]; exact present)
  have limit : ctx.qpPendingSendWr (emptyWrite dest).dest + 1 = maxSendWrPerQp := by
    change ctx.qpPendingSendWr dest + 1 = maxSendWrPerQp
    omega
  rw [if_pos limit] at performed
  have counted := ctx.incPending_self dest
  refine ⟨ctx.incPending dest, ?_, by omega, qps, rxWin⟩
  let posted : Node nprocs := { node with
    ctx := ctx
    sendQueue := Function.update node.sendQueue dest
      (node.sendQueue dest ++ List.replicate 255 (emptyPosted node.ctx dest)) }
  have last : Step posted (.post (emptyWrite dest) .accepted []) { posted with
      ctx := ctx.incPending dest
      pc := .head (.throttle dest)
      sendQueue := Function.update posted.sendQueue dest
        (posted.sendQueue dest ++ [emptyPosted ctx dest]) } := Step.postAccepted idle performed
  have queue : posted.sendQueue dest =
      node.sendQueue dest ++ List.replicate 255 (emptyPosted node.ctx dest) :=
    Function.update_self ..
  have request : emptyPosted ctx dest = emptyPosted node.ctx dest := by
    simp [emptyPosted, emptyWrite, PostCall.wr, Context.writeWr, inlined]
  rw [queue, request, Function.update_idem, List.append_assoc, ← List.replicate_succ'] at last
  rw [full, List.replicate_succ']
  exact .snoc run last

/-- A poll of one receive completion moves its buffer to the pending queue. -/
theorem take_run {node : Node nprocs} {loop : Loop nprocs} {wc : Wc} {rest : List Wc}
    {source : Fin nprocs} (polling : node.pc = .polling loop) (listed : node.cq = wc :: rest)
    (successful : wc.status = .success) (isFrom : node.isFrom source wc)
    (room : (node.pending source).length < recvPerProcess) :
    ∃ queue, queue.contents = node.pending source ++ [(wc.wrId.id : Int)] ∧
      (system nprocs).Execution node [.poll 1, .handle wc] { node with
        ctx := node.ctx.queued wc source queue
        pc := .afterHandled loop []
        cq := rest } := by
  obtain ⟨queue, stored, performed⟩ := Context.processWc_recv successful isFrom.1 isFrom.2 room
  let polled : Node nprocs := { node with pc := .handling loop [wc], cq := rest }
  have split : node.cq = [wc] ++ rest := listed
  have first : Step node (.poll 1) polled :=
    Step.poll polling split (show 1 ≤ pollBatch by decide)
  have second : Step polled (.handle wc) { node with
      ctx := node.ctx.queued wc source queue
      pc := .afterHandled loop []
      cq := rest } := Step.handle rfl performed
  exact ⟨queue, stored, .cons first (.single second)⟩

/-- `YMPI_Zrecv` for another source takes one receive completion and waits on. -/
theorem take_waiting_run {node : Node nprocs} {other source : Fin nprocs} {wc : Wc}
    {rest : List Wc} (atHead : node.pc = .head (.recv other)) (nothing : node.pending other = [])
    (listed : node.cq = wc :: rest) (successful : wc.status = .success)
    (isFrom : node.isFrom source wc) (room : (node.pending source).length < recvPerProcess) :
    ∃ queue, queue.contents = node.pending source ++ [(wc.wrId.id : Int)] ∧
      (system nprocs).Execution node [.test (.recv other), .poll 1, .handle wc] { node with
        ctx := node.ctx.queued wc source queue
        pc := .head (.recv other)
        cq := rest } := by
  let polling : Node nprocs := { node with pc := .polling (.recv other) }
  have tested : Step node (.test (.recv other)) polling :=
    Step.recvTest atHead (Context.recvHead_nil nothing)
  have atPoll : polling.pc = .polling (.recv other) := rfl
  obtain ⟨queue, stored, taken⟩ := take_run atPoll listed successful isFrom room
  exact ⟨queue, stored, .cons tested taken⟩

/-- `YMPI_Zrecv` takes the completion of a message of its source and hands the buffer out. -/
theorem zrecv_run {node : Node nprocs} {source : Fin nprocs} {wc : Wc} {rest : List Wc} {ret : Int}
    (idle : node.pc = .idle ret) (nothing : node.pending source = []) (listed : node.cq = wc :: rest)
    (successful : wc.status = .success) (isFrom : node.isFrom source wc)
    (room : node.fetchedIds.length < prepostDepth) :
    ∃ ctx result payload, (system nprocs).Execution node
        [.zrecv source, .test (.recv source), .poll 1, .handle wc, .received source result payload]
        { node with ctx := ctx, pc := .idle 0, cq := rest } ∧
      ctx.rxWin.vbufFetched.contents = node.fetchedIds ++ [(wc.wrId.id : Int)] ∧
      (∀ other, (ctx.rxWin.pendingRecvQueue other).contents = node.pending other) ∧
      ctx.qps = node.ctx.qps := by
  let waiting : Node nprocs := { node with pc := .head (.recv source) }
  have call : Step node (.zrecv source) waiting := Step.zrecv source idle
  have empty : waiting.pending source = [] := nothing
  obtain ⟨queue, stored, taken⟩ := take_waiting_run rfl empty listed successful isFrom
    (by rw [empty]; decide)
  rw [empty, List.nil_append] at stored
  let taking : Node nprocs := { waiting with
    ctx := waiting.ctx.queued wc source queue
    cq := rest }
  have pending : (taking.ctx.rxWin.pendingRecvQueue source).contents = [(wc.wrId.id : Int)] :=
    (congrArg PooledQueue.contents (waiting.ctx.queued_pending_self _ source queue)).trans stored
  have given : (wc.wrId.id : Int) ≠ -1 := by omega
  obtain ⟨ctx, result, performed, same⟩ := Context.recvHead_cons given pending room
  have received : Step taking _ _ := Step.received rfl performed
  refine ⟨ctx, _, _, (LabelledSystem.Execution.cons call taken).append (.single received), ?_⟩
  obtain ⟨left, fetched, first, handed, rfl, -, -⟩ := Context.recvHead_some performed
  rw [pending] at first
  refine ⟨?_, ?_, rfl⟩
  · rw [same] at handed
    exact handed
  · intro other
    by_cases own : other = source
    · subst own
      rw [nothing, Context.handedOut]
      simp only [Function.update_self]
      exact (List.cons.inj first).2.symm
    · rw [Context.handedOut]
      simp only [Function.update_of_ne own]
      exact congrArg PooledQueue.contents (waiting.ctx.queued_pending_of_ne wc queue own)

/-- A message of no bytes arrives in the oldest posted buffer. -/
theorem arrive_step {node : Node nprocs} {peer : Fin nprocs} {wr : RecvWr} {rest : List RecvWr}
    {qpNum : ℕ} (posted : node.srq = wr :: rest)
    (paired : node.ctx.qps.qpList peer = some qpNum) :
    Step node (.arrive peer wr [])
      { node with srq := rest, cq := node.cq ++ [recvWc wr qpNum []] } := by
  have step := Step.arrive [] (posted.trans (List.nil_append (wr :: rest)).symm) paired
  rw [List.take_nil, writeBlock_nil] at step
  exact step

/-- The receive buffers of a process in all their places: one has been handed out, one is pending,
one is behind a completion that has not been polled, and the others are posted. -/
structure Scattered (node : Node 3) : Prop where
  waiting : node.pc = .head (.recv 2)
  fetched : node.fetchedIds = [0]
  pending : node.pending 1 = [1]
  unpolled : ∃ wc, node.cq = [wc] ∧ wc.wrId = ⟨.recv, 2⟩
  posted : node.srq.length = 253

/-- Three messages of rank 1 have arrived. The process has received one of them, and waits for a
message of rank 2. -/
theorem exists_scattered : ∃ (history : List (Action 3)) (node : Node 3),
    (system 3).Reaches history node ∧ (∀ wr, .repost wr false ∉ history) ∧ node.Scattered := by
  obtain ⟨start, initial, listed, -⟩ := exists_initial (QpTable.direct 3 (by decide)) (fun _ => 0) []
  obtain ⟨node, run, started, qps, -⟩ := startup initial
  have paired : node.ctx.qps.qpList 1 = some 1 := by
    rw [qps, listed]
    rfl
  let wr (id : ℕ) : RecvWr := node.ctx.recvRequest id
  let others : List RecvWr := (List.range' 3 253).map wr
  have stock : node.srq = wr 0 :: wr 1 :: wr 2 :: others := by
    rw [started.srq_eq, List.range_eq_range', prepostDepth, List.map_map]
    rfl
  let wc (id : ℕ) : Wc := recvWc (wr id) 1 []
  -- The messages arrive.
  let arrived : Node 3 := { node with srq := others, cq := node.cq ++ [wc 0] ++ [wc 1] ++ [wc 2] }
  have first : Step node (.arrive 1 (wr 0) []) _ := arrive_step stock paired
  have second : Step _ (.arrive 1 (wr 1) []) _ := @arrive_step _ { node with
    srq := wr 1 :: wr 2 :: others
    cq := node.cq ++ [wc 0] } 1 _ _ _ rfl paired
  have third : Step _ (.arrive 1 (wr 2) []) arrived := @arrive_step _ { node with
    srq := wr 2 :: others
    cq := node.cq ++ [wc 0] ++ [wc 1] } 1 _ _ _ rfl paired
  -- `YMPI_Zrecv` hands one of them out.
  have completions : arrived.cq = wc 0 :: [wc 1, wc 2] := by
    simp [arrived, started.cq_eq]
  obtain ⟨ctx, result, payload, received, fetched, pending, qps'⟩ :=
    @zrecv_run _ arrived 1 _ _ _ started.pc_eq (started.pending_eq 1) completions rfl
      ⟨rfl, arrived.ctx.qps.rank_eq 1 1 paired⟩ (by
        change node.fetchedIds.length < _
        rw [started.fetched_eq]
        decide)
  have none (source : Fin 3) : (ctx.rxWin.pendingRecvQueue source).contents = [] :=
    (pending source).trans (started.pending_eq source)
  -- The call for rank 2 finds another one.
  let returned : Node 3 := { arrived with ctx := ctx, pc := .idle 0, cq := [wc 1, wc 2] }
  let waiting : Node 3 := { returned with pc := .head (.recv 2) }
  have call : Step returned (.zrecv 2) waiting := Step.zrecv 2 rfl
  have pairs : waiting.ctx.qps.qpList 1 = some 1 := by
    change ctx.qps.qpList 1 = _
    rw [qps']
    exact paired
  obtain ⟨queue, stored, taken⟩ := @take_waiting_run _ waiting 2 1 _ _ rfl (none 2) rfl rfl
    ⟨rfl, waiting.ctx.qps.rank_eq 1 1 pairs⟩ (by
      change (ctx.rxWin.pendingRecvQueue 1).contents.length < _
      rw [none 1]
      decide)
  refine ⟨_, _, ⟨start, initial, run.append (.cons first (.cons second (.cons third
    (received.append (.cons call taken)))))⟩, ?_, rfl, ?_, ?_, ⟨wc 2, rfl, rfl⟩, ?_⟩
  · intro wr' member
    rcases List.mem_append.mp member with early | later
    · cases returnActions_isReturn _ _ early
    · simp at later
  · change ctx.rxWin.vbufFetched.contents = _
    rw [fetched]
    change node.fetchedIds ++ _ = _
    rw [started.fetched_eq]
    rfl
  · refine (congrArg PooledQueue.contents
      (waiting.ctx.queued_pending_self (wc 1) 1 queue)).trans ?_
    rw [stored]
    change (ctx.rxWin.pendingRecvQueue 1).contents ++ _ = _
    rw [none 1]
    rfl
  · change others.length = 253
    simp [others]

/-- A process takes a step of its own inside a library call. -/
def InCall (before : Node nprocs) (action : Action nprocs) (_ : Node nprocs) : Prop :=
  (∀ ret, before.pc ≠ .idle ret) ∧ action.isNetwork = false

/-- `YMPI_Zflush` waits for the one request outstanding, takes its completion and returns. -/
theorem flush_run {node : Node nprocs} {ctx : Context nprocs} {peer : Fin nprocs} {wc : Wc}
    (atHead : node.pc = .head .flush) (counted : node.ctx = ctx.incPending peer)
    (only : ctx.pendingSendWr = 0) (listed : node.cq = [wc]) (successful : wc.status = .success)
    (isSend : wc.isSendTo peer = true) :
    ((system nprocs).restrict InCall).Execution node
      [.test .flush, .poll 1, .handle wc, .test .flush]
      { node with ctx := ctx, pc := .idle 0, cq := [] } := by
  have waits : 0 < node.ctx.pendingSendWr := by
    rw [counted]
    change 0 < ctx.pendingSendWr + 1
    omega
  let polling : Node nprocs := { node with pc := .polling .flush }
  let handling : Node nprocs := { node with pc := .handling .flush [wc], cq := [] }
  let settled : Node nprocs := { node with ctx := ctx, pc := .head .flush, cq := [] }
  have tested : Step node (.test .flush) polling := .flushTest atHead waits
  have polled : Step polling (.poll 1) handling :=
    @Step.poll _ polling .flush [wc] [] rfl listed (show 1 ≤ pollBatch by decide)
  have performed : node.ctx.processWc wc = .ok ctx := by
    rw [Context.processWc_send successful isSend, counted, Context.settled_incPending]
  have atBatch : handling.pc = .handling .flush (wc :: []) := rfl
  have handled : Step handling (.handle wc) settled := Step.handle atBatch performed
  have through : ¬ 0 < settled.ctx.pendingSendWr := by
    change ¬ 0 < ctx.pendingSendWr
    omega
  have ended : Step settled (.test .flush)
      { node with ctx := ctx, pc := .idle 0, cq := [] } := .flushEnd rfl through
  have busy : ∀ ret, node.pc ≠ .idle ret := by
    intro ret
    rw [atHead]
    nofun
  exact .cons ⟨tested, busy, rfl⟩ (.cons ⟨polled, nofun, rfl⟩
    (.cons ⟨handled, nofun, rfl⟩ (.single ⟨ended, nofun, rfl⟩)))

/-- The node after its HCA has executed the oldest write to `dest`. -/
def launch (node : Node nprocs) (dest : Fin nprocs) (posted : Posted) (rest : List Posted) :
    Node nprocs :=
  { node with
    sendQueue := Function.update node.sendQueue dest rest
    executed := Function.update node.executed dest (node.executed dest ++ [⟨posted, true⟩]) }

theorem launch_step (node : Node nprocs) {dest : Fin nprocs} {posted : Posted}
    {rest : List Posted} (listed : node.sendQueue dest = posted :: rest)
    (opcode : posted.wr.opcode = .rdmaWrite) :
    Step node (.execute dest posted true []) (node.launch dest posted rest) := by
  have unchanged : posted.wr.scatter node.mem [] = node.mem := by
    simp [SendWr.scatter, opcode]
  have step := Step.execute true [] listed
  rw [unchanged] at step
  exact step

/-- The write completes at once. -/
theorem complete_step (node : Node nprocs) {dest : Fin nprocs} (posted : Posted)
    (rest : List Posted) (signaled : posted.wr.sendFlags.signaled = true) {qpNum : ℕ}
    (paired : node.ctx.qps.qpList dest = some qpNum) :
    Step (node.launch dest posted rest) (.complete dest ⟨posted, true⟩ .success) { node with
      sendQueue := Function.update node.sendQueue dest rest
      cq := node.cq ++ [⟨posted.wr.wrId, .success, posted.data.length, qpNum⟩] } := by
  have last : (node.launch dest posted rest).executed dest =
      node.executed dest ++ ⟨posted, true⟩ :: [] := Function.update_self ..
  have restored : Function.update (node.launch dest posted rest).executed dest
      (node.executed dest ++ []) = node.executed := by
    rw [List.append_nil]
    change Function.update (Function.update _ _ _) _ _ = _
    rw [Function.update_idem, Function.update_eq_self]
  have completed := Step.complete .success last paired signaled fun _ => rfl
  rw [restored] at completed
  exact completed

end Node

namespace Cluster

/-- A process takes a step of its own inside a cluster. -/
theorem act_update {cluster : Cluster nprocs} {rank : Fin nprocs} {action : Action nprocs}
    {before after : Node nprocs} (own : action.isNetwork = false)
    (step : Node.Step before action after) :
    Step (Function.update cluster rank before) (.act rank action)
      (Function.update cluster rank after) := by
  have moved : Step (Function.update cluster rank before) (.act rank action) _ :=
    .act own (by rw [Function.update_self]; exact step)
  rw [Function.update_idem] at moved
  exact moved

/-- A process runs on its own inside a cluster. -/
theorem execution_update (cluster : Cluster nprocs) (rank : Fin nprocs)
    {actions : List (Action nprocs)} {before after : Node nprocs}
    (execution : (Node.system nprocs).Execution before actions after)
    (own : ∀ action ∈ actions, action.isNetwork = false) :
    (system nprocs).Execution (Function.update cluster rank before) (actions.map (.act rank))
      (Function.update cluster rank after) := by
  induction execution with
  | refl => exact .refl _
  | snoc earlier step ih =>
      have first := ih fun action member => own action (List.mem_append_left _ member)
      rw [List.map_append]
      exact .snoc first (act_update (own _ (List.mem_append_right _ List.mem_cons_self)) step)

theorem execution_act {cluster : Cluster nprocs} {rank : Fin nprocs}
    {actions : List (Action nprocs)} {node : Node nprocs}
    (execution : (Node.system nprocs).Execution (cluster rank) actions node)
    (own : ∀ action ∈ actions, action.isNetwork = false) :
    (system nprocs).Execution cluster (actions.map (.act rank))
      (Function.update cluster rank node) := by
  have run := execution_update cluster rank execution own
  rw [Function.update_eq_self] at run
  exact run

/-- A message is sent to a process with a posted buffer, and arrives. -/
theorem message_run {cluster : Cluster nprocs} {source dest : Fin nprocs} (apart : source ≠ dest)
    {ret : Int} (idle : (cluster source).pc = .idle ret)
    (present : (cluster source).ctx.qps.qpList dest ≠ none)
    (empty : (cluster source).sendQueue dest = []) {qpNum : ℕ}
    (paired : (cluster dest).ctx.qps.qpList source = some qpNum) {wr : RecvWr} {rest : List RecvWr}
    (posted : (cluster dest).srq = wr :: rest) {buffer : RdmaBuffer} {offset bytes : ℕ}
    (inBounds : Context.inBounds buffer offset bytes) {message : Posted}
    (gathered : message = ⟨(cluster source).ctx.zsendWr buffer offset bytes dest,
      ((cluster source).ctx.zsendWr buffer offset bytes dest).gather (cluster source).mem⟩) :
    ∃ sender, (system nprocs).Execution cluster
        [.act source (.post (.zsend buffer offset bytes dest) .accepted
            (readBlock (cluster source).mem (sizeT (buffer.buf + offset)) bytes)),
          .deliver source dest message wr]
        (Function.update (Function.update cluster source sender) dest { cluster dest with
          ctx := { (cluster dest).ctx with rxWin := { (cluster dest).ctx.rxWin with
            buf := writeBlock (cluster dest).ctx.rxWin.buf wr.sge.addr
              (message.data.take wr.sge.length) } }
          srq := rest
          cq := (cluster dest).cq ++ [recvWc wr qpNum message.data] }) ∧
      sender.ctx = (cluster source).ctx.incPending dest ∧ sender.sendQueue dest = [] ∧
      sender.mem = (cluster source).mem ∧
      sender.pc = if (cluster source).ctx.qpPendingSendWr dest + 1 = maxSendWrPerQp
        then .head (.throttle dest) else .idle 0 := by
  subst gathered
  let call : PostCall nprocs := .zsend buffer offset bytes dest
  have performed := PostCall.perform_ok (show call.InBounds from inBounds)
    (show (cluster source).ctx.qps.qpList call.dest ≠ none from present)
  let pc : Pc nprocs := if (cluster source).ctx.qpPendingSendWr dest + 1 = maxSendWrPerQp
    then .head (.throttle dest) else .idle 0
  let message : Posted := ⟨(cluster source).ctx.zsendWr buffer offset bytes dest,
    ((cluster source).ctx.zsendWr buffer offset bytes dest).gather (cluster source).mem⟩
  let waiting : Node nprocs := { cluster source with
    ctx := (cluster source).ctx.incPending dest
    pc := pc
    sendQueue := Function.update (cluster source).sendQueue dest
      ((cluster source).sendQueue dest ++ [message]) }
  have sent : Node.Step (cluster source) (.post call .accepted
      (readBlock (cluster source).mem (sizeT (buffer.buf + offset)) bytes)) waiting :=
    Node.Step.postAccepted idle performed
  have listed : waiting.sendQueue dest = message :: [] := by
    rw [show waiting.sendQueue dest = (cluster source).sendQueue dest ++ [message] from
      Function.update_self .., empty, List.nil_append]
  let sender : Node nprocs := { waiting with
    sendQueue := Function.update waiting.sendQueue dest []
    executed := Function.update waiting.executed dest
      (waiting.executed dest ++ [⟨message, true⟩]) }
  have launched : Node.Step waiting (.execute dest message true []) sender :=
    Node.Step.execute true [] listed
  let receiver : Node nprocs := { cluster dest with
    ctx := { (cluster dest).ctx with rxWin := { (cluster dest).ctx.rxWin with
      buf := writeBlock (cluster dest).ctx.rxWin.buf wr.sge.addr
        (message.data.take wr.sge.length) } }
    srq := rest
    cq := (cluster dest).cq ++ [recvWc wr qpNum message.data] }
  have arrived : Node.Step (cluster dest) (.arrive source wr message.data) receiver :=
    Node.Step.arrive message.data (posted.trans (List.nil_append (wr :: rest)).symm) paired
  let afterSend : Cluster nprocs := Function.update cluster source waiting
  have delivered : Step afterSend (.deliver source dest message wr)
      (Function.update (Function.update afterSend source sender) dest receiver) := by
    refine .deliver rfl ?_ ?_
    · rw [show afterSend source = waiting from Function.update_self ..]
      exact launched
    · rw [Function.update_of_ne apart.symm,
        show afterSend dest = cluster dest from Function.update_of_ne apart.symm ..]
      exact arrived
  rw [Function.update_idem] at delivered
  exact ⟨sender, .cons (.act rfl sent) (.single delivered), rfl, Function.update_self .., rfl, rfl⟩

/-- A message of no bytes is sent to a process with a posted buffer, and arrives. -/
theorem send_run {cluster : Cluster nprocs} {source dest : Fin nprocs} (apart : source ≠ dest)
    {ret : Int} (idle : (cluster source).pc = .idle ret)
    (present : (cluster source).ctx.qps.qpList dest ≠ none)
    (empty : (cluster source).sendQueue dest = []) {qpNum : ℕ}
    (paired : (cluster dest).ctx.qps.qpList source = some qpNum) {wr : RecvWr} {rest : List RecvWr}
    (posted : (cluster dest).srq = wr :: rest) :
    ∃ sender, (system nprocs).Execution cluster
        [.act source (.post (emptySend dest) .accepted []),
          .deliver source dest (emptyMessage (cluster source).ctx dest) wr]
        (Function.update (Function.update cluster source sender) dest { cluster dest with
          srq := rest
          cq := (cluster dest).cq ++ [recvWc wr qpNum []] }) ∧
      sender.ctx = (cluster source).ctx.incPending dest ∧ sender.sendQueue dest = [] ∧
      sender.pc = if (cluster source).ctx.qpPendingSendWr dest + 1 = maxSendWrPerQp
        then .head (.throttle dest) else .idle 0 := by
  have message : emptyMessage (cluster source).ctx dest = _ := rfl
  have inside : (emptySend dest).InBounds := emptySend_inBounds
  obtain ⟨sender, run, ctx, emptied, -, pc⟩ := message_run apart idle present empty paired posted
    inside message
  simp only [emptyMessage, List.take_nil, writeBlock_nil] at run
  exact ⟨sender, run, ctx, emptied, pc⟩

/-- The oldest write to a peer, of no bytes, takes effect and completes. -/
theorem complete_run (cluster : Cluster nprocs) (source : Fin nprocs) {node : Node nprocs}
    {dest : Fin nprocs} {posted : Posted} {rest : List Posted}
    (listed : node.sendQueue dest = posted :: rest) (opcode : posted.wr.opcode = .rdmaWrite)
    (data : posted.data = []) (signaled : posted.wr.sendFlags.signaled = true) {qpNum : ℕ}
    (paired : node.ctx.qps.qpList dest = some qpNum) :
    (system nprocs).Execution (Function.update cluster source node)
      [.rdmaWrite source dest posted true, .act source (.complete dest ⟨posted, true⟩ .success)]
      (Function.update cluster source { node with
        sendQueue := Function.update node.sendQueue dest rest
        cq := node.cq ++ [⟨posted.wr.wrId, .success, 0, qpNum⟩] }) := by
  have landed (peer : Node nprocs) :
      Node.Step peer (.land posted.wr.remoteAddr posted.data) peer := by
    have step : Node.Step peer (.land posted.wr.remoteAddr posted.data) _ :=
      Node.Step.land posted.wr.remoteAddr posted.data
    nth_rewrite 2 [data] at step
    rw [writeBlock_nil] at step
    exact step
  have write : Step (Function.update cluster source node) (.rdmaWrite source dest posted true)
      (Function.update cluster source (node.launch dest posted rest)) := by
    have step : Step (Function.update cluster source node) (.rdmaWrite source dest posted true) _ :=
      Step.writeDone opcode (Or.inl (by rw [data]; rfl))
        (by rw [Function.update_self]; exact node.launch_step listed opcode) (landed _)
    rw [Function.update_idem, Function.update_eq_self] at step
    exact step
  have completed := node.complete_step posted rest signaled paired
  rw [data] at completed
  exact .cons write (.single (act_update rfl completed))

/-- The oldest write to another process lands there. -/
theorem land_step {cluster : Cluster nprocs} {source dest : Fin nprocs} (apart : source ≠ dest)
    {posted : Posted} {rest : List Posted}
    (listed : (cluster source).sendQueue dest = posted :: rest)
    (opcode : posted.wr.opcode = .rdmaWrite)
    (permits : permitsWrite (cluster dest).mrs posted.wr.rkey posted.wr.remoteAddr
      posted.data.length) :
    Step cluster (.rdmaWrite source dest posted true)
      (Function.update (Function.update cluster dest { cluster dest with
          mem := writeBlock (cluster dest).mem posted.wr.remoteAddr posted.data })
        source ((cluster source).launch dest posted rest)) := by
  have landed := @Node.Step.land _ (cluster dest) posted.wr.remoteAddr posted.data
  have write : Step cluster (.rdmaWrite source dest posted true) _ :=
    Step.writeDone opcode permits ((cluster source).launch_step listed opcode)
      (by rw [Function.update_of_ne apart.symm]; exact landed)
  rw [Function.update_comm apart] at write
  exact write

/-- The oldest write to another process lands there and completes. -/
theorem land_run {cluster : Cluster nprocs} {source dest : Fin nprocs} (apart : source ≠ dest)
    {posted : Posted} {rest : List Posted}
    (listed : (cluster source).sendQueue dest = posted :: rest)
    (opcode : posted.wr.opcode = .rdmaWrite)
    (permits : permitsWrite (cluster dest).mrs posted.wr.rkey posted.wr.remoteAddr
      posted.data.length)
    (signaled : posted.wr.sendFlags.signaled = true) {qpNum : ℕ}
    (paired : (cluster source).ctx.qps.qpList dest = some qpNum) :
    (system nprocs).Execution cluster
      [.rdmaWrite source dest posted true, .act source (.complete dest ⟨posted, true⟩ .success)]
      (Function.update (Function.update cluster dest { cluster dest with
          mem := writeBlock (cluster dest).mem posted.wr.remoteAddr posted.data })
        source { cluster source with
          sendQueue := Function.update (cluster source).sendQueue dest rest
          cq := (cluster source).cq ++
            [⟨posted.wr.wrId, .success, posted.data.length, qpNum⟩] }) :=
  .cons (land_step apart listed opcode permits)
    (.single (act_update rfl ((cluster source).complete_step posted rest signaled paired)))

/-- A write of no bytes is posted below the limit of the queue pair, takes effect and
completes. -/
theorem write_run (cluster : Cluster nprocs) (source : Fin nprocs) {node : Node nprocs}
    {dest : Fin nprocs} (idle : node.pc = .idle 0) {qpNum : ℕ}
    (paired : node.ctx.qps.qpList dest = some qpNum) (empty : node.sendQueue dest = [])
    (below : node.ctx.qpPendingSendWr dest + 1 < maxSendWrPerQp) :
    ∃ labels, (system nprocs).Execution (Function.update cluster source node) labels
      (Function.update cluster source { node with
        ctx := node.ctx.incPending dest
        cq := node.cq ++ [⟨⟨.write, dest⟩, .success, 0, qpNum⟩] }) := by
  have present : node.ctx.qps.qpList dest ≠ none := by
    rw [paired]
    exact Option.some_ne_none _
  let posted : Node nprocs := { node with
    ctx := node.ctx.incPending dest
    sendQueue := Function.update node.sendQueue dest
      (node.sendQueue dest ++ [Node.emptyPosted node.ctx dest]) }
  have first : Step (Function.update cluster source node)
      (.act source (.post (emptyWrite dest) .accepted []))
      (Function.update cluster source posted) :=
    act_update rfl (Node.post_below idle present below)
  have queue : posted.sendQueue dest = [Node.emptyPosted node.ctx dest] := by
    change Function.update _ _ _ _ = _
    rw [Function.update_self, empty, List.nil_append]
  have others := complete_run cluster source queue rfl rfl rfl paired
  have emptied : Function.update posted.sendQueue dest [] = node.sendQueue := by
    change Function.update (Function.update _ _ _) _ _ = _
    rw [Function.update_idem, ← empty, Function.update_eq_self]
  rw [emptied] at others
  exact ⟨_, .cons first others⟩

/-- Any number of writes below the limit of the queue pair complete without a poll. -/
theorem writes_run (cluster : Cluster nprocs) (source : Fin nprocs) {dest : Fin nprocs}
    (count : ℕ) {node : Node nprocs} (idle : node.pc = .idle 0) {qpNum : ℕ}
    (paired : node.ctx.qps.qpList dest = some qpNum) (empty : node.sendQueue dest = [])
    (room : node.ctx.qpPendingSendWr dest + count < maxSendWrPerQp) :
    ∃ labels ctx cq, (system nprocs).Execution (Function.update cluster source node) labels
        (Function.update cluster source { node with ctx := ctx, cq := cq }) ∧
      cq.length = node.cq.length + count ∧ ctx.qps = node.ctx.qps ∧
      ∀ peer, peer ≠ dest → ctx.qpPendingSendWr peer = node.ctx.qpPendingSendWr peer := by
  induction count generalizing node with
  | zero => exact ⟨[], node.ctx, node.cq, .refl _, rfl, rfl, fun _ _ => rfl⟩
  | succ count ih =>
      obtain ⟨front, first⟩ := write_run cluster source idle paired empty (by omega)
      have counted := node.ctx.incPending_self dest
      obtain ⟨back, ctx, cq, others, length, qps, same⟩ := @ih { node with
        ctx := node.ctx.incPending dest
        cq := node.cq ++ [⟨⟨.write, dest⟩, .success, 0, qpNum⟩] } idle paired empty (by
          change (node.ctx.incPending dest).qpPendingSendWr dest + count < maxSendWrPerQp
          omega)
      rw [List.length_append, List.length_singleton] at length
      refine ⟨front ++ back, ctx, cq, first.append others, by omega, qps, ?_⟩
      intro peer other
      rw [same peer other]
      exact node.ctx.incPending_of_ne other

/-- Any set of processes about to start can start while the others wait. -/
theorem startup_ranks (todo : List (Fin nprocs)) (distinct : todo.Nodup) {cluster : Cluster nprocs}
    (initial : ∀ rank ∈ todo, (cluster rank).Initial) :
    ∃ labels cluster', (system nprocs).Execution cluster labels cluster' ∧
      (∀ label ∈ labels, label.isReturn = true) ∧
      (∀ rank ∈ todo, (cluster' rank).Started ∧ (cluster' rank).ctx.qps = (cluster rank).ctx.qps ∧
        (cluster' rank).mem = (cluster rank).mem ∧ (cluster' rank).mrs = (cluster rank).mrs) ∧
      ∀ rank, rank ∉ todo → cluster' rank = cluster rank := by
  induction todo generalizing cluster with
  | nil =>
      refine ⟨[], cluster, .refl cluster, ?_, ?_, fun _ _ => rfl⟩
      · intro label member
        cases member
      · intro rank member
        cases member
  | cons first rest ih =>
      obtain ⟨fresh, distinct⟩ := List.nodup_cons.mp distinct
      obtain ⟨node, run, started, kept⟩ := Node.startup (initial first List.mem_cons_self)
      have returns (action) (member : action ∈ Node.startupActions (cluster first).ctx) :
          action.isReturn = true := Node.returnActions_isReturn _ _ member
      have begun := execution_act run fun action member =>
        Action.isReturn_local (returns action member)
      have waiting : ∀ rank ∈ rest, (Function.update cluster first node rank).Initial := by
        intro rank member
        have other : rank ≠ first := fun equal => fresh (equal ▸ member)
        rw [Function.update_of_ne other]
        exact initial rank (List.mem_cons_of_mem _ member)
      obtain ⟨labels, cluster', others, returning, done, same⟩ := ih distinct waiting
      refine ⟨_, cluster', begun.append others, ?_, ?_, ?_⟩
      · intro label member
        rcases List.mem_append.mp member with own | later
        · obtain ⟨action, taken, rfl⟩ := List.mem_map.mp own
          exact returns action taken
        · exact returning label later
      · intro rank member
        rcases List.mem_cons.mp member with rfl | later
        · rw [same rank fresh, Function.update_self]
          exact ⟨started, kept⟩
        · have other : rank ≠ first := fun equal => fresh (equal ▸ later)
          have finished := done rank later
          rw [Function.update_of_ne other] at finished
          exact finished
      · intro rank outside
        have other : rank ≠ first := fun equal => outside (equal ▸ List.mem_cons_self)
        rw [same rank fun later => outside (List.mem_cons_of_mem _ later),
          Function.update_of_ne other]

/-- Any number of processes can all start, with any memories and registrations. -/
theorem exists_started_with (tables : Fin nprocs → QpTable nprocs)
    (mems : Fin nprocs → ℕ → UInt8) (mrs : Fin nprocs → List Mr) :
    ∃ labels cluster, (system nprocs).Reaches labels cluster ∧
      (∀ label ∈ labels, label.isReturn = true) ∧
      ∀ rank, (cluster rank).Started ∧ (cluster rank).ctx.qps = tables rank ∧
        (cluster rank).mem = mems rank ∧ (cluster rank).mrs = mrs rank := by
  choose nodes initial qps stored registered using fun rank =>
    Node.exists_initial (tables rank) (mems rank) (mrs rank)
  obtain ⟨labels, cluster, run, returning, started, -⟩ := startup_ranks (List.finRange nprocs)
    (List.nodup_finRange nprocs) fun rank _ => initial rank
  refine ⟨labels, cluster, ⟨nodes, initial, run⟩, returning, fun rank => ?_⟩
  obtain ⟨ready, tables', mem, mr⟩ := started rank (List.mem_finRange rank)
  exact ⟨ready, tables'.trans (qps rank), mem.trans (stored rank), mr.trans (registered rank)⟩

/-- Any number of processes can all start. -/
theorem exists_started (tables : Fin nprocs → QpTable nprocs) :
    ∃ labels cluster, (system nprocs).Reaches labels cluster ∧
      (∀ label ∈ labels, label.isReturn = true) ∧
      ∀ rank, (cluster rank).Started ∧ (cluster rank).ctx.qps = tables rank := by
  obtain ⟨labels, cluster, reached, returning, started⟩ :=
    exists_started_with tables (fun _ _ => 0) fun _ => []
  exact ⟨labels, cluster, reached, returning, fun rank => ⟨(started rank).1, (started rank).2.1⟩⟩

end Cluster

end Ympi.Messaging
