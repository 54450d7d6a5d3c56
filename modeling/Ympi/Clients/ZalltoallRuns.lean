import Mathlib.Order.Interval.Finset.Fin
import Ympi.Clients.CompletionQueue
import Ympi.Clients.ZalltoallBenchmark

/-! # Runs of the all-to-all benchmark

An iteration leaves no message under way and no buffer held, so it can be played when each rank
has a receive buffer for every other rank. With more ranks it can jam: the last rank waits for
rank 0, which has sent nothing yet, while the ranks right below it have taken all its buffers.
-/

namespace Ympi.Clients.Zalltoall

open LinkedList Foundation Messaging

variable {numprocs : ℕ} (setting : Setting numprocs)

section Exchange

variable (size : Power (setting.options.maxSize numprocs)) (source dest : Fin numprocs)

/-- In an iteration each rank sends one message to each other one. -/
theorem sendsTo_exchange : Op.sendsTo dest (exchange setting size source).ops =
    if dest ≠ source then 1 else 0 := by
  rw [exchange, Script.sendsTo_sendsThen, dest_messages, count_peers]
  simp [receiveAll, Op.messagesTo]

theorem receivesFrom_exchange : Op.receivesFrom source (exchange setting size dest).ops =
    if dest ≠ source then 1 else 0 := by
  rw [exchange, Script.receivesFrom_sendsThen]
  simp [receiveAll, Op.messagesFrom, count_peers, eq_comm]

theorem heldAfter_exchange (held : ℕ) : Op.heldAfter (exchange setting size source).ops held = 0 := by
  rw [exchange, Script.heldAfter_sendsThen]
  simp [receiveAll, Op.heldAfter_append, Op.heldAfter]

theorem plays_exchange : Script.Plays fun rank => (exchange setting size rank).ops := by
  apply Script.plays_exchange
  · intro rank
    refine ⟨_, _, rfl, fun _ => Script.receivesFrom_map_op .., ?_⟩
    simp [receiveAll, Op.messagesTo]
  · intro source dest
    rw [receivesFrom_exchange, sendsTo_exchange]

/-- An iteration of at most 257 ranks completes. -/
theorem completes_exchange (few : numprocs ≤ prepostDepth + 1) :
    Completes (exchange setting size) (fun _ => 0) fun _ => 0 := by
  apply Completes.of_plays (plays_exchange setting size)
  · intro rank
    have total : ∑ source, Op.sendsTo rank (exchange setting size source).ops =
        (peers rank).length := by
      rw [← sum_count]
      apply Finset.sum_congr rfl
      intro source _
      rw [sendsTo_exchange, count_peers]
      simp only [ne_comm]
    rw [total, length_peers]
    omega
  · intro rank
    rw [heldAfter_exchange]

/-- An iteration sends a message to each other rank before it flushes. -/
theorem light_exchange (rank : Fin numprocs) :
    Op.Light (numprocs - 1) (exchange setting size rank).ops := by
  have flushed (following : List (Op numprocs)) :
      Op.unflushed ((receiveAll rank).ops ++ following) = 0 := by
    have skips (sources : List (Fin numprocs)) (rest : List (Op numprocs)) :
        Op.unflushed (sources.map .zrecv ++ rest) = Op.unflushed rest := by
      induction sources with
      | nil => rfl
      | cons source others ih => exact ih
    rw [receiveAll, Script.ops_append, Script.ops_append, Script.ops_receives, List.append_assoc,
      List.append_assoc, skips]
    rfl
  have receives : Op.Light (numprocs - 1) (receiveAll rank).ops :=
    ((Op.light_receives _).append (Op.light_nil.cons fun _ => id)).append
      (Op.light_nil.cons fun _ => id)
  apply Op.light_sends _ _ receives _ flushed
  rw [List.length_map, length_peers]

end Exchange

section Main

/-- The benchmark consists of iterations. -/
theorem mem_measure {options : Options} {sizes : List (Power (setting.options.maxSize numprocs))}
    {calls : Phase numprocs} (member : calls ∈ measure setting options sizes) :
    calls = Phase.idle ∨ ∃ size, calls = exchange setting size := by
  induction sizes generalizing options with
  | nil => cases member
  | cons size rest ih =>
      rcases List.mem_append.mp member with iteration | later
      · exact Or.inr ⟨size, List.eq_of_mem_replicate iteration⟩
      · rcases List.mem_cons.mp later with rfl | later
        · exact Or.inl rfl
        · rcases List.mem_cons.mp later with rfl | later
          · exact Or.inl rfl
          · exact ih later

theorem completesAll_measure (few : numprocs ≤ prepostDepth + 1) (options : Options)
    (sizes : List (Power (setting.options.maxSize numprocs))) :
    CompletesAll (measure setting options sizes) (fun _ => 0) fun _ => 0 := by
  apply CompletesAll.of_forall
  intro calls member
  rcases mem_measure setting member with rfl | ⟨size, rfl⟩
  · exact .idle _ fun _ => Nat.zero_le _
  · exact completes_exchange setting size few

/-- The benchmark begins with an iteration for the least size. -/
theorem exists_main_eq_cons
    (some : setting.options.minMessageSize ≤ setting.options.maxSize numprocs) :
    ∃ size rest, main setting = exchange setting size :: rest := by
  obtain ⟨exponent, power⟩ := setting.options.minMessageSize_pow
  have positive : 0 < setting.options.minMessageSize := power ▸ Nat.two_pow_pos exponent
  obtain ⟨sizes, listed⟩ :=
    Power.exists_doublings_eq_cons setting.options.minMessageSize_pow
      (positive.trans_le some) some
  let least : Power (setting.options.maxSize numprocs) :=
    ⟨setting.options.minMessageSize, some, setting.options.minMessageSize_pow⟩
  have turns : 0 < (setting.options.forSize least.value).iterations +
      (setting.options.forSize least.value).skip :=
    Nat.add_pos_left (setting.options.forSize least.value).iterations_pos _
  obtain ⟨others, more⟩ := Nat.exists_eq_add_one.mpr turns
  rw [main, listed, measure, more, List.replicate_succ]
  exact ⟨least, _, rfl⟩

end Main

section Jam

/-- The ranks that a rank sends to before rank 0 sends anything: the last rank sends to all
others, and the 256 ranks before it to those after them. -/
def eager (rank : Fin numprocs) : List (Fin numprocs) :=
  if rank.val + 1 = numprocs then peers rank
  else if numprocs ≤ rank + prepostDepth + 1 then (List.finRange numprocs).drop (rank + 1)
  else []

theorem eager_front (rank : Fin numprocs) : eager rank <+: peers rank := by
  unfold eager
  split_ifs
  · exact List.prefix_rfl
  · rw [peers, around_eq_append next_val]
    exact List.prefix_append _ _
  · exact List.nil_prefix

theorem count_eager (source dest : Fin numprocs) : (eager source).count dest =
    if source.val + 1 = numprocs ∧ dest ≠ source ∨
      source.val + 1 ≠ numprocs ∧ numprocs ≤ source + prepostDepth + 1 ∧ source < dest
    then 1 else 0 := by
  unfold eager
  by_cases last : source.val + 1 = numprocs
  · rw [if_pos last, count_peers]
    simp only [last, true_and, not_true_eq_false, false_and, or_false, ne_eq]
  · rw [if_neg last]
    by_cases late : numprocs ≤ source + prepostDepth + 1
    · have distinct : ((List.finRange numprocs).drop (source + 1)).Nodup :=
        (List.nodup_finRange _).sublist (List.drop_sublist _ _)
      rw [if_pos late, distinct.count]
      simp only [mem_drop_finRange, last, late, false_and, not_false_eq_true, true_and, false_or,
        Nat.succ_le_iff, Fin.lt_def, ne_eq]
    · simp [last, late]

section Many

variable (many : prepostDepth + 2 ≤ numprocs) (dest : Fin numprocs)

include many

/-- The last rank is sent 256 messages, and no other rank is sent more. -/
theorem sum_count_eager_last (last : dest.val + 1 = numprocs) :
    ∑ source, (eager source).count dest = prepostDepth := by
  have each (source : Fin numprocs) : (eager source).count dest =
      if source ∈ Finset.Ico ⟨numprocs - (prepostDepth + 1), by omega⟩ dest then 1 else 0 := by
    rw [count_eager]
    congr 1
    apply propext
    rw [Finset.mem_Ico, Fin.le_def, Fin.lt_def, ne_eq, Fin.ext_iff]
    dsimp only
    omega
  rw [Finset.sum_congr rfl fun source _ => each source, Finset.sum_ite_mem, Finset.univ_inter,
    ← Finset.card_eq_sum_ones, Fin.card_Ico]
  dsimp only
  omega

theorem sum_count_eager_le : ∑ source, (eager source).count dest ≤ prepostDepth := by
  by_cases last : dest.val + 1 = numprocs
  · exact (sum_count_eager_last many dest last).le
  · let senders : Finset (Fin numprocs) :=
      insert ⟨numprocs - 1, by omega⟩
        (Finset.Ico ⟨numprocs - (prepostDepth + 1), by omega⟩ dest)
    have each (source : Fin numprocs) :
        (eager source).count dest ≤ if source ∈ senders then 1 else 0 := by
      rw [count_eager]
      split_ifs with sends listed
      any_goals omega
      apply absurd _ listed
      rw [Finset.mem_insert, Finset.mem_Ico, Fin.le_def, Fin.lt_def, Fin.ext_iff]
      dsimp only
      omega
    have few : senders.card ≤ prepostDepth := by
      refine (Finset.card_insert_le _ _).trans ?_
      have inside := dest.isLt
      have one_le : 1 ≤ prepostDepth := by decide
      rw [Fin.card_Ico]
      dsimp only
      omega
    refine (Finset.sum_le_sum fun source _ => each source).trans ?_
    rw [Finset.sum_ite_mem, Finset.univ_inter, ← Finset.card_eq_sum_ones]
    exact few

end Many

/-- The last rank receives from rank 0 first. -/
theorem exists_peers_eq_cons {rank : Fin numprocs} (last : rank.val + 1 = numprocs)
    (two_le : 2 ≤ numprocs) : ∃ rest, peers rank = ⟨0, rank.pos⟩ :: rest := by
  obtain ⟨count, rfl⟩ := Nat.exists_eq_add_one.mpr rank.pos
  obtain ⟨others, same⟩ := Nat.exists_eq_add_one.mpr (show 0 < rank.val by omega)
  have whole : (List.finRange (count + 1)).drop (rank + 1) = [] := by
    rw [List.drop_eq_nil_iff, List.length_finRange, last]
  rw [peers, around_eq_append next_val, whole, List.nil_append, same, List.finRange_succ,
    List.take_succ_cons]
  exact ⟨_, rfl⟩

/-- With 258 or more ranks the benchmark can come to a state that it is never done after. -/
theorem zalltoall_can_jam {job : Job numprocs} (many : prepostDepth + 2 ≤ numprocs)
    (some : setting.options.minMessageSize ≤ setting.options.maxSize numprocs)
    (initial : Job.Initial (main setting) job) :
    ∃ more jammed, (Job.system (main setting)).Execution job more jammed ∧
      ∀ further after, (Job.system (main setting)).Execution jammed further after →
        ¬ after.Done := by
  obtain ⟨size, back, whole⟩ := exists_main_eq_cons setting some
  rw [whole] at initial ⊢
  let last : Fin numprocs := ⟨numprocs - 1, by omega⟩
  have last_val : last.val + 1 = numprocs := Nat.sub_add_cancel (by omega)
  let early (rank : Fin numprocs) : List (Op numprocs) :=
    ((eager rank).map (message setting size)).map (Outgoing.op (setting.sendBuffer rank))
  let later (rank : Fin numprocs) : List (Op numprocs) :=
    (((peers rank).drop (eager rank).length).map (message setting size)).map
      (Outgoing.op (setting.sendBuffer rank)) ++ (receiveAll rank).ops
  have split (rank : Fin numprocs) : (exchange setting size rank).ops = early rank ++ later rank := by
    have parts := List.prefix_iff_eq_append.mp (eager_front rank)
    rw [exchange, Script.ops_sendsThen]
    nth_rewrite 1 [← parts]
    simp only [early, later, List.map_append, List.append_assoc]
  obtain ⟨others, first⟩ := exists_peers_eq_cons last_val setting.two_le
  have awaits : ∃ rest, later last = .zrecv ⟨0, last.pos⟩ :: rest := by
    have all : (peers last).drop (eager last).length = [] := by
      rw [eager, if_pos last_val, List.drop_length]
    simp only [later]
    rw [all, receiveAll, first]
    exact ⟨_, rfl⟩
  obtain ⟨rest, awaits⟩ := awaits
  have sent (source dest : Fin numprocs) :
      Op.sendsTo dest (early source) = (eager source).count dest := by
    rw [Script.sendsTo_map_op, dest_messages]
  apply Job.can_jam_ahead (.nil _) initial split
    (fun rank source => Script.receivesFrom_map_op ..) (fun rank => Script.heldAfter_map_op ..)
    _ awaits
  · rw [Nat.zero_add, Finset.sum_congr rfl fun source _ => sent source last]
    exact sum_count_eager_last many last last_val
  · rw [sent, count_eager, if_neg]
    dsimp only
    omega
  · intro rank
    rw [Nat.zero_add, Finset.sum_congr rfl fun source _ => sent source rank]
    exact sum_count_eager_le many rank

end Jam

/-- **The all-to-all benchmark.** Whatever the ranks and the hardware have done, the benchmark can
still come to its end, exactly when there are at most 257 ranks or no size to measure. -/
theorem zalltoall_can_finish_iff {job : Job numprocs} (initial : Job.Initial (main setting) job) :
    (∀ labels reached, (Job.system (main setting)).Execution job labels reached →
      ∃ more after, (Job.system (main setting)).Execution reached more after ∧ after.Done) ↔
        numprocs ≤ 257 ∨ setting.options.maxSize numprocs < setting.options.minMessageSize := by
  constructor
  · intro finishes
    by_contra neither
    obtain ⟨many, some⟩ := not_or.mp neither
    obtain ⟨labels, jammed, execution, forever⟩ :=
      zalltoall_can_jam setting (Nat.not_le.mp many) (Nat.not_lt.mp some) initial
    obtain ⟨more, after, execution', done⟩ := finishes labels jammed execution
    exact forever more after execution' done
  · rintro (few | none) labels reached execution
    · exact Job.can_finish (completesAll_measure setting few _ _) ⟨job, initial, execution⟩
    · have chain : CompletesAll (main setting) (fun _ => 0) fun _ => 0 := by
        rw [main, Power.doublings_eq_nil none]
        exact .nil _
      exact Job.can_finish chain ⟨job, initial, execution⟩

/-- **Its completion queues.** With at most 257 ranks no completion queue has more entries than it
was created with. -/
theorem zalltoall_cq_le (few : numprocs ≤ 257) {labels : List (Option (Label numprocs))}
    {job : Job numprocs} (reached : (Job.system (main setting)).Reaches labels job)
    (rank : Fin numprocs) : (job.cluster rank).cq.length ≤ cqEntries := by
  have light : ∀ calls ∈ main setting, ∀ actor, Op.Light (numprocs - 1) (calls actor).ops := by
    intro calls member actor
    rcases mem_measure setting member with rfl | ⟨size, rfl⟩
    · exact Op.light_nil
    · exact light_exchange setting size actor
  have bounded := Job.reaches_cq_le (completesAll_measure setting few _ _) light reached rank
  have entries : cqEntries = 1024 := rfl
  have buffers : prepostDepth = 256 := rfl
  omega

/-- Two processes with the default options. -/
def pair : Setting 2 where
  options := .default
  sendBuffer _ := ⟨4096, 2 ^ 20 * 2, ⟨4096, 2 ^ 20 * 2, 1, 1, true, true⟩⟩
  sendBuffer_bytes _ := rfl
  small := by decide
  two_le := Nat.one_lt_two

theorem zalltoall_can_finish_pair : ∃ job, Job.Initial (main pair) job ∧
    ∀ labels reached, (Job.system (main pair)).Execution job labels reached →
      ∃ more after, (Job.system (main pair)).Execution reached more after ∧ after.Done := by
  obtain ⟨job, initial⟩ := Job.exists_initial (main pair) (by decide)
  exact ⟨job, initial, (zalltoall_can_finish_iff pair initial).mpr (.inl (by decide))⟩

theorem zalltoall_cq_pair : ∃ job, Job.Initial (main pair) job ∧ ∀ labels after,
    (Job.system (main pair)).Execution job labels after →
      ∀ rank, (after.cluster rank).cq.length ≤ cqEntries := by
  obtain ⟨job, initial⟩ := Job.exists_initial (main pair) (by decide)
  refine ⟨job, initial, ?_⟩
  intro labels after execution rank
  exact zalltoall_cq_le pair (by decide) ⟨job, initial, execution⟩ rank

end Ympi.Clients.Zalltoall
