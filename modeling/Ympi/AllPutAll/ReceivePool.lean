import Ympi.AllPutAll.Accounts
import Ympi.Foundation.PeerRounds
import Ympi.Messaging.ReceivePath

/-! # The receive pool of the benchmark

A rank completes an iteration only with a message of each of its peers, so it is at most
one iteration ahead of any of them. What has arrived at a rank is then at most two messages
of each peer more than it has given back, and that is less than the receive pool holds.
-/

namespace Ympi.AllPutAll

open Foundation Messaging

variable {nprocs : ℕ}

/-- The buffers with a message that has arrived and that `YMPI_Return` has not given back:
behind an unhandled completion, in a pending queue, or with the caller. -/
def heldBuffers (node : Node nprocs) : ℕ :=
  (recvIds node.unhandled).length + ∑ source, (node.pending source).length +
    node.fetchedIds.length

section Setup

variable {action : Action nprocs}

theorem isReturn_fits (returned : action.isReturn = true) : action.LengthFits := by
  cases action with
  | post => cases returned
  | _ => trivial

theorem isReturn_sentTo (returned : action.isReturn = true) (dest : Fin nprocs) :
    action.sentTo dest = [] := by
  cases action with
  | post => cases returned
  | _ => rfl

theorem isReturn_arrivedFrom (returned : action.isReturn = true) (source : Fin nprocs) :
    action.arrivedFrom source = [] := by
  cases action with
  | arrive => cases returned
  | _ => rfl

theorem isReturn_receivedFrom (returned : action.isReturn = true) (source : Fin nprocs) :
    action.receivedFrom source = [] := by
  cases action with
  | received => cases returned
  | _ => rfl

end Setup

section Histories

variable {β : Type} {f : Action nprocs → List β} {setup labels : List (Label nprocs)}
  {rank : Fin nprocs}

/-- The setup of the ranks leaves no trace in what only messages do. -/
theorem nodeHistory_setup (quiet : ∀ action : Action nprocs, action.isReturn = true → f action = [])
    (returns : ∀ label ∈ setup, label.isReturn = true) :
    (nodeHistory rank (setup ++ labels)).flatMap f = (nodeHistory rank labels).flatMap f := by
  have none : (nodeHistory rank setup).flatMap f = [] := by
    rw [List.flatMap_eq_nil_iff]
    intro action member
    exact quiet action (nodeHistory_isReturn returns member)
  rw [nodeHistory, List.flatMap_append, List.flatMap_append]
  rw [nodeHistory] at none
  rw [none, List.nil_append]
  rfl

end Histories

/-- Every message that arrives has a source. -/
theorem length_consumed (history : List (Action nprocs)) :
    (history.flatMap Action.consumed).length =
      ∑ source, (history.flatMap (Action.arrivedFrom source)).length := by
  induction history with
  | nil => simp
  | cons action rest ih =>
      have single : action.consumed.length = ∑ source, (action.arrivedFrom source).length := by
        cases action with
        | arrive peer wr payload =>
            simp [Action.consumed, Action.arrivedFrom, apply_ite List.length]
        | _ => simp [Action.consumed, Action.arrivedFrom]
      simp only [List.flatMap_cons, List.length_append, Finset.sum_add_distrib, ih, single]

section Rank

variable {setting : Setting nprocs} {rank : Fin nprocs} {history : List (Action nprocs)}
  {node : Node nprocs} {thread : Thread}

/-- Posted buffers are used up by messages that arrive. -/
theorem reaches_srq (reached : (rankSystem setting rank).Reaches history (node, thread)) :
    node.srq.length + (history.flatMap Action.consumed).length =
      prepostDepth + (history.flatMap Action.reposted).length := by
  refine reached.induction (motive := fun history state =>
    state.1.srq.length + (history.flatMap Action.consumed).length =
      prepostDepth + (history.flatMap Action.reposted).length) ?_ ?_
  · intro start initial
    rw [initial.started.srq_eq]
    simp
  · intro earlier before action after _ balance step
    have moved := (RankStep.node step).srq_ledger.length_eq
    simp only [List.length_append, List.flatMap_append, List.flatMap_singleton] at moved ⊢
    omega

/-- The queue pairs of a rank stay. -/
theorem reaches_connected (reached : (rankSystem setting rank).Reaches history (node, thread))
    {peer : Fin nprocs} (member : peer ∈ setting.peers rank) :
    node.ctx.qps.qpList peer ≠ none := by
  refine reached.induction (motive := fun _ state => state.1.ctx.qps.qpList peer ≠ none) ?_ ?_
  · intro start initial
    exact initial.connected peer member
  · intro _ before action after _ present step
    rw [(RankStep.node step).qps_eq]
    exact present

end Rank

section State

variable {setting : Setting nprocs} {labels : List (Label nprocs)} {state : State nprocs}

/-- The cluster of a reached state has been reached after its setup. -/
theorem reaches_cluster (reached : (system setting).Reaches labels state) :
    ∃ setup, (Cluster.system nprocs).Reaches (setup ++ labels) state.cluster ∧
      ∀ label ∈ setup, label.isReturn = true := by
  obtain ⟨start, initial, execution⟩ := reached
  obtain ⟨setup, ready, returns⟩ := initial.initialized
  have image : (Cluster.system nprocs).Execution start.cluster
      (labels.flatMap fun label => [label]) state.cluster := by
    refine execution.simulate State.cluster _ ?_
    intro before label after step
    cases step with
    | process _ _ acts => exact .single acts
    | hardware _ acts => exact .single acts
  rw [List.flatMap_singleton'] at image
  exact ⟨setup, ready.append image, returns⟩

/-- Every message that a rank sent to another has arrived there or is in the send queue. -/
theorem reaches_sent (reached : (system setting).Reaches labels state) (source dest : Fin nprocs) :
    (nodeHistory source labels).flatMap (Action.sentTo dest) =
      (nodeHistory dest labels).flatMap (Action.arrivedFrom source) ++
        messagesOf ((state.cluster source).sendQueue dest) := by
  obtain ⟨setup, ready, returns⟩ := reaches_cluster reached
  have accounts := reaches_accounts (reaches_rank reached source)
  have fits : ∀ action ∈ nodeHistory source (setup ++ labels), action.LengthFits := by
    intro action member
    rw [nodeHistory, List.flatMap_append] at member
    rcases List.mem_append.mp member with early | late
    · exact isReturn_fits (nodeHistory_isReturn returns early)
    · exact accounts.fits action late
  have sent := Node.reaches_sent (reaches_node ready source) fits dest
  rw [Cluster.delivered_arrived ready source dest,
    nodeHistory_setup (fun _ returned => isReturn_sentTo returned dest) returns,
    nodeHistory_setup (fun _ returned => isReturn_arrivedFrom returned source) returns] at sent
  exact sent

/-- A rank has received only messages that have arrived. -/
theorem received_le_arrived (reached : (system setting).Reaches labels state)
    (rank source : Fin nprocs) :
    ((nodeHistory rank labels).flatMap (Action.receivedFrom source)).length ≤
      ((nodeHistory rank labels).flatMap (Action.arrivedFrom source)).length := by
  obtain ⟨setup, ready, returns⟩ := reaches_cluster reached
  obtain ⟨waiting, delivers⟩ := Node.reaches_delivers (reaches_node ready rank) source
  have order := congrArg List.length delivers.order
  rw [nodeHistory_setup (fun _ returned => isReturn_arrivedFrom returned source) returns,
    List.length_append,
    nodeHistory_setup (fun _ returned => isReturn_receivedFrom returned source) returns] at order
  omega

/-- **Rounds.** The iterations of the ranks are rounds of exchanges between peers. -/
theorem peerRounds (reached : (system setting).Reaches labels state) :
    PeerRounds setting.peers (fun rank => (state.threads rank).iteration)
      (fun rank dest => ((nodeHistory rank labels).flatMap (Action.sentTo dest)).length)
      (fun rank source => ((nodeHistory rank labels).flatMap (Action.arrivedFrom source)).length)
      (fun rank source =>
        ((nodeHistory rank labels).flatMap (Action.receivedFrom source)).length) := by
  have accounts := fun rank => reaches_accounts (reaches_rank reached rank)
  refine ⟨?_, ?_, ?_, ?_, ?_, received_le_arrived reached⟩
  · intro rank peer member
    obtain ⟨turn, ⟨pos, bound⟩, listed⟩ := Setting.mem_peers.mp member
    refine Setting.mem_peers.mpr ⟨_, ⟨?_, ?_⟩, Setting.peer_symmetric bound listed⟩
    · omega
    · exact Nat.sub_lt (by decide) pos
  · intro rank other stranger
    rw [(accounts rank).silent other stranger, List.length_nil]
  · intro rank peer member
    obtain ⟨turn, ⟨pos, bound⟩, listed⟩ := Setting.mem_peers.mp member
    exact ((accounts rank).sent turn peer pos bound listed).trans
      (Thread.entered_sends_le pos _)
  · intro rank peer member
    obtain ⟨turn, ⟨pos, bound⟩, listed⟩ := Setting.mem_peers.mp member
    exact (Thread.iteration_le_takes _ turn).trans
      ((accounts rank).received turn peer pos bound listed)
  · intro rank source
    rw [reaches_sent reached source rank, List.length_append]
    exact Nat.le_add_right _ _

/-- The receive buffers of a rank are posted or held. -/
theorem srq_add_heldBuffers (reached : (system setting).Reaches labels state)
    (rank : Fin nprocs) : (state.cluster rank).srq.length + heldBuffers (state.cluster rank) =
      prepostDepth := by
  obtain ⟨setup, ready, returns⟩ := reaches_cluster reached
  have accounts := reaches_accounts (reaches_rank reached rank)
  have whole := Node.reaches_balance (reaches_node ready rank) (by
    intro wr member
    rw [nodeHistory, List.flatMap_append] at member
    rcases List.mem_append.mp member with early | late
    · cases nodeHistory_isReturn returns early
    · exact accounts.unfailing wr late)
  rw [heldBuffers]
  omega

/-- The bound on the buffers that a rank holds. -/
theorem heldBuffers_le (reached : (system setting).Reaches labels state) (rank : Fin nprocs) :
    heldBuffers (state.cluster rank) ≤ 254 := by
  have accounts := reaches_accounts (reaches_rank reached rank)
  have posted := reaches_srq (reaches_rank reached rank)
  have whole := srq_add_heldBuffers reached rank
  have completed := accounts.completed
  have skew : ((nodeHistory rank labels).flatMap Action.consumed).length ≤
      127 * ((state.threads rank).iteration + 2) := by
    rw [length_consumed]
    exact ((peerRounds reached).sum_arrived_le rank).trans
      (Nat.mul_le_mul_right _ (setting.card_peers_le rank))
  omega

/-- A posted buffer is always left. -/
theorem exists_posted (reached : (system setting).Reaches labels state) (rank : Fin nprocs) :
    ∃ wr rest, (state.cluster rank).srq = wr :: rest := by
  apply List.exists_cons_of_length_pos
  have whole := srq_add_heldBuffers reached rank
  have bound := heldBuffers_le reached rank
  have depth : prepostDepth = 256 := rfl
  omega

/-- The oldest message in a send queue can arrive. -/
theorem exists_deliver (reached : (system setting).Reaches labels state)
    {source rank : Fin nprocs} {posted : Posted} {rest : List Posted}
    (waiting : (state.cluster source).sendQueue rank = posted :: rest)
    (opcode : posted.wr.opcode = .send) :
    ∃ wr after, Step setting state (.deliver source rank posted wr) after := by
  have member : rank ∈ setting.peers source := by
    by_contra stranger
    have silent := (reaches_accounts (reaches_rank reached source)).silent rank stranger
    rw [reaches_sent reached source rank, waiting] at silent
    have none := (List.append_eq_nil_iff.mp silent).2
    simp [messagesOf, opcode] at none
  have apart : rank ≠ source := by
    obtain ⟨turn, ⟨pos, bound⟩, listed⟩ := Setting.mem_peers.mp member
    exact Setting.peer_ne pos bound listed
  obtain ⟨qpNum, paired⟩ := Option.ne_none_iff_exists'.mp
    (reaches_connected (reaches_rank reached rank) ((peerRounds reached).symmetric _ _ member))
  obtain ⟨wr, others, free⟩ := exists_posted reached rank
  have sent := Node.Step.execute true [] waiting
  have arrived := @Node.Step.arrive _ _ source [] others wr qpNum posted.data free paired
  rw [← Function.update_of_ne apart _ state.cluster] at arrived
  exact ⟨wr, _, .hardware rfl (.deliver opcode sent arrived)⟩

/-- **The receive pool suffices.** In every run of the benchmark, however the ranks and the
deliveries interleave, a rank holds at most 254 of its 256 buffers. Every message can arrive
at once, and no rank starves. -/
theorem receive_pool_suffices (reached : (system setting).Reaches labels state)
    (rank : Fin nprocs) :
    ((state.cluster rank).srq.length + heldBuffers (state.cluster rank) = prepostDepth ∧
      heldBuffers (state.cluster rank) ≤ 254) ∧
    (∀ source posted rest, (state.cluster source).sendQueue rank = posted :: rest →
      posted.wr.opcode = .send →
        ∃ wr after, Step setting state (.deliver source rank posted wr) after) ∧
    ∀ source, ¬ Cluster.Starves state.cluster rank source := by
  refine ⟨⟨srq_add_heldBuffers reached rank, heldBuffers_le reached rank⟩, ?_, ?_⟩
  · intro source posted rest waiting opcode
    exact exists_deliver reached waiting opcode
  · intro source starves
    obtain ⟨wr, rest, free⟩ := exists_posted reached rank
    apply starves.stuck
    exact Or.inl (by rw [free]; exact List.cons_ne_nil wr rest)

/-- A single group that sends messages of one byte. -/
def oneGroup : Setting 128 where
  np := 128
  nb := 1
  localRankToGlobalRank := Equiv.refl _
  sendBuffer _ := ⟨4096, allputallNumprocs * maxBytes,
    ⟨4096, allputallNumprocs * maxBytes, 0, 0, false, false⟩⟩
  np_le := le_rfl
  np_dvd := dvd_rfl
  nb_le := by decide
  sendBuffer_bytes _ := rfl

/-- The first message of rank 0 arrives at rank 1. -/
theorem receive_pool_suffices_group : ∃ (labels : List (Label 128)) (state : State 128),
    (system oneGroup).Reaches labels state ∧
      (nodeHistory 1 labels).flatMap (Action.arrivedFrom 0) ≠ [] ∧
      heldBuffers (state.cluster 1) ≤ 254 := by
  obtain ⟨setup, cluster, ready, returning, started⟩ :=
    Cluster.exists_started fun _ : Fin 128 => QpTable.direct 128 (by decide)
  have present (rank peer : Fin 128) : (cluster rank).ctx.qps.qpList peer ≠ none := by
    rw [(started rank).2]
    exact Option.some_ne_none _
  let start : State 128 := ⟨cluster, fun _ => .start⟩
  have initial : Initial oneGroup start :=
    ⟨⟨setup, ready, returning⟩, fun rank => (started rank).1, fun rank peer _ => present rank peer,
      fun _ => rfl⟩
  -- Rank 0 sends.
  let message : PostCall 128 := .zsend (oneGroup.sendBuffer 0) (1 * 1) 1 1
  have bounded : message.InBounds := oneGroup.send_inBounds 0 (by decide)
  have sent := Node.Step.postAccepted (started 0).1.pc_eq
    (PostCall.perform_ok bounded (present 0 1))
  have follows (data : List UInt8) :
      oneGroup.Follows 0 .start (cluster 0) (.post message .accepted data) := by
    refine ⟨?_, ?_⟩
    · intro _ _
      exact ⟨_, rfl, .post message .accepted data⟩
    · intro wr same
      cases same
  have posts : Step oneGroup start _ _ := .process rfl (follows _) (.act rfl sent)
  have began : (system oneGroup).Reaches [] start := .initial initial
  have sending := began.step posts
  -- The message arrives.
  have waiting : Function.update (cluster 0).sendQueue 1 ((cluster 0).sendQueue 1 ++
      [⟨message.wr (cluster 0).ctx, (message.wr (cluster 0).ctx).gather (cluster 0).mem⟩]) 1 =
        [⟨message.wr (cluster 0).ctx, (message.wr (cluster 0).ctx).gather (cluster 0).mem⟩] := by
    rw [Function.update_self, (started 0).1.sendQueue_eq, List.nil_append]
  obtain ⟨wr, after, delivers⟩ := (receive_pool_suffices sending 1).2.1 0 _ [] (by
    rw [Function.update_self]
    exact waiting) rfl
  have reached := sending.step delivers
  refine ⟨_, after, reached, ?_, (receive_pool_suffices reached 1).1.2⟩
  simp [nodeHistory, Label.actionsOf, Action.arrivedFrom]

end State

end Ympi.AllPutAll
