import Ympi.AllPutAll.Benchmark
import Ympi.Clients.CompletionQueue
import Ympi.Clients.Loops
import Ympi.Foundation.Doubling

/-! # The all-put-all benchmark as a program

`ympi_allputall` runs its exchange for 128, 256, ... ranks and for messages of 1, 2, ..., 4096
bytes. The ranks of a group make their calls of `do_allputall` one after the other without a
barrier.
-/

namespace Ympi.Clients.Allputall

open LinkedList Foundation Messaging AllPutAll

variable {nprocs : ℕ}

section Calls

variable (setting : AllPutAll.Setting nprocs) {rank : Fin nprocs}
  (inside : setting.localRank rank < setting.np)

/-- The values of `i` in the loops of `do_allputall`. -/
def turns : List ℕ :=
  List.range' 1 (allputallNumprocs - 1)

/-- `local_rank_to_global_rank[q]` in turn `i`. -/
def target (i : ℕ) : Fin nprocs :=
  setting.localRankToGlobalRank ⟨partner (setting.localRank rank) i,
    ((partner_lt_iff setting.np_dvd _ i).mpr inside).trans_le setting.np_le⟩

/-- The ranks that a rank sends to and receives from. -/
def targets : List (Fin nprocs) :=
  turns.map (target setting inside)

theorem peer_eq_target (i : ℕ) : setting.peer rank i = some (target setting inside i) :=
  dif_pos ((partner_lt_iff setting.np_dvd _ i).mpr inside)

theorem mem_turns {i : ℕ} : i ∈ turns ↔ 1 ≤ i ∧ i < allputallNumprocs := by
  unfold turns
  rw [List.mem_range'_1]
  rfl

theorem targets_nodup : (targets setting inside).Nodup := by
  apply List.Nodup.map_on _ List.nodup_range'
  intro i listed j listed' same
  exact AllPutAll.Setting.peer_injective (mem_turns.mp listed).2 (mem_turns.mp listed').2
    ((peer_eq_target setting inside i).trans (congrArg some same))
    (peer_eq_target setting inside j)

theorem mem_targets {peer : Fin nprocs} :
    peer ∈ targets setting inside ↔ peer ∈ setting.peers rank := by
  rw [AllPutAll.Setting.mem_peers, targets, List.mem_map]
  simp only [peer_eq_target setting inside, Option.some.injEq, mem_turns]

theorem count_targets (peer : Fin nprocs) :
    (targets setting inside).count peer = if peer ∈ setting.peers rank then 1 else 0 := by
  rw [(targets_nodup setting inside).count]
  simp only [mem_targets]

/-- The send buffer is filled with zeros. -/
def payload : List UInt8 :=
  List.replicate setting.nb 0

/-- The message of turn `i`. -/
def message (i : ℕ) : Outgoing nprocs :=
  ⟨i * setting.nb, payload setting, target setting inside i⟩

theorem message_fits {i : ℕ} (listed : i ∈ turns) :
    ((message setting inside i).op (setting.sendBuffer rank)).Fits := by
  have long : (payload setting).length = setting.nb := List.length_replicate
  constructor
  · rw [show (message setting inside i).payload.length = setting.nb from long]
    exact AllPutAll.Setting.send_inBounds rank (mem_turns.mp listed).2
  · exact long.trans_le (setting.nb_le.trans (by decide))

theorem dest_messages :
    (turns.map (message setting inside)).map Outgoing.dest = targets setting inside := by
  rw [List.map_map]
  rfl

/-- `do_allputall` -/
def doAllputall : Phase nprocs := fun rank =>
  if inside : setting.localRank rank < setting.np then
    .posts (setting.sendBuffer rank) (turns.map (message setting inside))
        (by
          intro outgoing member
          obtain ⟨i, listed, rfl⟩ := List.mem_map.mp member
          exact message_fits setting inside listed)
        (by
          intro peer
          rw [dest_messages]
          exact (List.nodup_iff_count_le_one.mp (targets_nodup setting inside) peer).trans
            (by decide)) ++
      .receives (targets setting inside) ++ .giveBack
  else .done

/-- The messages that `source` sends to `dest` in a call. -/
def volume (source dest : Fin nprocs) : ℕ :=
  if dest ∈ setting.peers source then 1 else 0

end Calls

section Exchange

variable (setting : AllPutAll.Setting nprocs) (source dest : Fin nprocs)

/-- A rank from `np` on has no peers. -/
theorem peers_eq_empty {rank : Fin nprocs} (outside : ¬ setting.localRank rank < setting.np) :
    setting.peers rank = ∅ := by
  rw [Finset.eq_empty_iff_forall_notMem]
  intro peer member
  obtain ⟨i, -, found⟩ := AllPutAll.Setting.mem_peers.mp member
  have within := (AllPutAll.Setting.peer_eq_some.mp found).1
  exact outside ((partner_lt_iff setting.np_dvd _ i).mp within)

theorem mem_peers_symm {rank other : Fin nprocs} (member : other ∈ setting.peers rank) :
    rank ∈ setting.peers other := by
  obtain ⟨i, ⟨least, most⟩, found⟩ := AllPutAll.Setting.mem_peers.mp member
  refine AllPutAll.Setting.mem_peers.mpr ⟨allputallNumprocs - i, ?_,
    AllPutAll.Setting.peer_symmetric most found⟩
  omega

theorem mem_peers_comm {rank other : Fin nprocs} :
    other ∈ setting.peers rank ↔ rank ∈ setting.peers other :=
  ⟨mem_peers_symm setting, mem_peers_symm setting⟩

theorem volume_comm : volume setting source dest = volume setting dest source :=
  if_congr (mem_peers_comm setting) rfl rfl

theorem sendsTo_doAllputall :
    Op.sendsTo dest (doAllputall setting source).ops = volume setting source dest := by
  unfold doAllputall volume
  split
  next inside =>
      rw [Script.ops_append, Script.ops_append, Op.sendsTo_append, Op.sendsTo_append,
        Script.sendsTo_posts, dest_messages, count_targets]
      simp [Op.messagesTo]
  next outside => simp [peers_eq_empty setting outside]

theorem receivesFrom_doAllputall :
    Op.receivesFrom source (doAllputall setting dest).ops = volume setting source dest := by
  rw [volume_comm]
  unfold doAllputall volume
  split
  next inside => simp [count_targets, Op.messagesFrom]
  next outside => simp [peers_eq_empty setting outside]

theorem exchanges : Script.Exchanges (doAllputall setting) (volume setting) where
  sends := sendsTo_doAllputall setting
  receives := receivesFrom_doAllputall setting
  answered source dest some := by
    rwa [volume_comm] at some
  givesBack rank := by
    unfold doAllputall
    split
    · simp [Op.heldAfter_append, Op.heldAfter]
    · rfl

theorem plays_doAllputall : Script.Plays fun rank => (doAllputall setting rank).ops := by
  apply Script.plays_exchange
  · intro rank
    unfold doAllputall
    split
    · exact ⟨_, _, List.append_assoc .., by simp, by simp [Op.messagesTo]⟩
    · exact Script.sendsFirst_of_sends fun _ => rfl
  · intro source dest
    rw [receivesFrom_doAllputall, sendsTo_doAllputall]

/-- A rank is sent a message by each of its 127 peers. -/
theorem sum_volume_le : ∑ source, volume setting source dest ≤ 127 := by
  rw [Finset.sum_congr rfl fun source _ => volume_comm setting source dest]
  unfold volume
  rw [Finset.sum_ite_mem, Finset.univ_inter, ← Finset.card_eq_sum_ones]
  exact setting.card_peers_le dest

/-- A call of `do_allputall` sends 127 messages before it flushes. -/
theorem light_doAllputall (rank : Fin nprocs) : Op.Light 127 (doAllputall setting rank).ops := by
  unfold doAllputall
  split
  next inside =>
    have flushed : Op.Light 127 (Script.flush : Script nprocs).ops :=
      Op.light_nil.cons fun _ => id
    have sends := Op.light_sends (setting.sendBuffer rank)
      (turns.map (message setting inside)) flushed
      (by rw [List.length_map, turns, List.length_range']; decide) fun _ => rfl
    exact (sends.append (Op.light_receives _)).append (Op.light_nil.cons fun _ => id)
  next => exact Op.light_nil

/-- Any number of calls of `do_allputall` complete. -/
theorem completes_calls (iter : ℕ) :
    Completes (fun rank => (doAllputall setting rank).times iter) (fun _ => 0) fun _ => 0 := by
  apply (exchanges setting).completes iter (plays_doAllputall setting)
  intro dest
  have few := sum_volume_le setting dest
  have enough : 2 * 127 ≤ prepostDepth := by decide
  omega

end Exchange

/-- The table `local_rank_to_global_rank` and the send buffer that each process allocates. -/
structure Launch (nprocs : ℕ) where
  localRankToGlobalRank : Equiv.Perm (Fin nprocs)
  sendBuffer : Fin nprocs → RdmaBuffer
  sendBuffer_bytes : ∀ rank, (sendBuffer rank).bytes = allputallNumprocs * maxBytes

section Main

variable (launch : Launch nprocs)

/-- The arguments of the calls of `do_allputall` for `np` ranks and messages of `nb` bytes. -/
def Launch.setting (np : Power nprocs) (whole : allputallNumprocs ∣ np.value)
    (nb : Power maxBytes) : AllPutAll.Setting nprocs where
  np := np.value
  nb := nb.value
  localRankToGlobalRank := launch.localRankToGlobalRank
  sendBuffer := launch.sendBuffer
  np_le := np.le
  np_dvd := whole
  nb_le := nb.le
  sendBuffer_bytes := launch.sendBuffer_bytes

/-- The values of `np`. -/
def nps (nprocs : ℕ) : List (Power nprocs) :=
  Power.doublings nprocs nprocs allputallNumprocs ⟨7, rfl⟩

/-- The values of `nb`. -/
def nbs : List (Power maxBytes) :=
  Power.doublings maxBytes maxBytes 1 Power.one_eq_pow

theorem dvd_of_mem_nps {np : Power nprocs} (member : np ∈ nps nprocs) :
    allputallNumprocs ∣ np.value := by
  have least := Power.le_of_mem_doublings member
  obtain ⟨exponent, same⟩ := np.pow
  have seven : allputallNumprocs = 2 ^ 7 := rfl
  rw [same, seven] at least ⊢
  exact pow_dvd_pow 2 ((Nat.pow_le_pow_iff_right Nat.one_lt_two).mp least)

/-- The macro `TEST_SHUFFLE` with `iter` calls for each number of ranks and size, between its
barriers. -/
def testShuffle (iter : ℕ) : List (Phase nprocs) :=
  (nps nprocs).attach.flatMap fun np => nbs.flatMap fun nb =>
    [Phase.idle,
      fun rank => (doAllputall (launch.setting np.val (dvd_of_mem_nps np.property) nb)
        rank).times iter,
      Phase.idle]

/-- The tests of `main`, from the first barrier of its macro on. -/
def main : List (Phase nprocs) :=
  testShuffle launch 2

theorem mem_testShuffle {iter : ℕ} {calls : Phase nprocs}
    (member : calls ∈ testShuffle launch iter) : calls = Phase.idle ∨
      ∃ setting, calls = fun rank => (doAllputall setting rank).times iter := by
  obtain ⟨np, -, inner⟩ := List.mem_flatMap.mp member
  obtain ⟨nb, -, listed⟩ := List.mem_flatMap.mp inner
  simp only [List.mem_cons, List.not_mem_nil, or_false] at listed
  rcases listed with rfl | rfl | rfl
  · exact Or.inl rfl
  · exact Or.inr ⟨_, rfl⟩
  · exact Or.inl rfl

theorem completesAll_testShuffle (iter : ℕ) :
    CompletesAll (testShuffle launch iter) (fun _ => 0) fun _ => 0 := by
  apply CompletesAll.of_forall
  intro calls member
  rcases mem_testShuffle launch member with rfl | ⟨setting, rfl⟩
  · exact .idle _ fun _ => Nat.zero_le _
  · exact completes_calls setting iter

theorem light_testShuffle (iter : ℕ) {calls : Phase nprocs}
    (member : calls ∈ testShuffle launch iter) (rank : Fin nprocs) :
    Op.Light 127 (calls rank).ops := by
  rcases mem_testShuffle launch member with rfl | ⟨setting, rfl⟩
  · exact Op.light_nil
  · exact Script.light_times (light_doAllputall setting rank) iter

end Main

/-- **The all-put-all benchmark.** On any number of ranks and with any number of calls between two
barriers, the benchmark can come to its end from every state that it reaches, and no completion
queue has more entries than it was created with. -/
theorem allputall_can_finish (launch : Launch nprocs) (iter : ℕ)
    {labels : List (Option (Label nprocs))} {job : Job nprocs}
    (reached : (Job.system (testShuffle launch iter)).Reaches labels job) :
    (∃ more after, (Job.system (testShuffle launch iter)).Execution job more after ∧ after.Done) ∧
      ∀ rank, (job.cluster rank).cq.length ≤ cqEntries := by
  have chain := completesAll_testShuffle launch iter
  refine ⟨Job.can_finish chain reached, ?_⟩
  intro rank
  exact (Job.reaches_cq_le chain (fun _ => light_testShuffle launch iter) reached rank).trans
    (by decide)

/-- A single group. -/
def group : Launch allputallNumprocs where
  localRankToGlobalRank := Equiv.refl _
  sendBuffer _ := ⟨4096, 128 * maxBytes, ⟨4096, 128 * maxBytes, 1, 1, true, true⟩⟩
  sendBuffer_bytes _ := rfl

theorem allputall_can_finish_group : ∃ job, Job.Initial (main group) job ∧
    ∃ more after, (Job.system (main group)).Execution job more after ∧ after.Done := by
  obtain ⟨job, initial⟩ := Job.exists_initial (main group) (by decide)
  exact ⟨job, initial, (allputall_can_finish group 2 (.initial initial)).1⟩

end Ympi.Clients.Allputall
