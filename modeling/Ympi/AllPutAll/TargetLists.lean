import Mathlib.Data.Prod.Lex
import Ympi.AllPutAll.Benchmark
import Ympi.Foundation.Segments

/-! # The target ranks of the benchmark

Before `YMPI_Init_ranklist` each rank of the benchmark marks the ranks of its group in
`target_rank_list`, with a table from the ranks of `shuffled_comm_world` to those of
`MPI_COMM_WORLD`. The table has entries for all groups, but only those of the ranks there are have
been written. The others are 0, so a rank whose group is incomplete marks rank 0 instead.
-/

namespace Ympi.AllPutAll

open Foundation

/-- `MAX_NUM_PROCS`, the length of the rank tables. -/
def maxNumProcs : ℕ := 4 * 40 * 1024

/-- `DISTANCE`. -/
def distance : ℕ := 1

/-- `shuffle_rank`. -/
def shuffleRank (rank nprocs : ℕ) : ℕ :=
  rank * distance % nprocs

variable {nprocs : ℕ}

/-- The ranks in the order that they have in `shuffled_comm_world`: by their keys, and by
themselves if the keys are equal. -/
def shuffledCommWorld (nprocs : ℕ) : List (Fin nprocs) :=
  sortBy (fun rank => toLex (shuffleRank rank nprocs, rank)) (List.finRange nprocs)

/-- The variable `shuffled_rank` of `main`. -/
def shuffledRank (rank : Fin nprocs) : ℕ :=
  (shuffledCommWorld nprocs).idxOf rank

/-- `local_rank_to_global_rank` after `MPI_Allgather`, if this does not write behind the table. -/
def localRankToGlobalRank (nprocs : ℕ) : Option (ℕ → ℕ) :=
  if nprocs ≤ maxNumProcs then
    some fun q => match (shuffledCommWorld nprocs)[q]? with
      | some rank => rank.val
      | none => 0
  else none

/-- The loop that marks `count` targets from turn `i` on, if it stays inside the tables. -/
def markTargets (table : ℕ → ℕ) (rank : ℕ) (list : ℕ → Int32) :
    (count i : ℕ) → Option (ℕ → Int32)
  | 0, _ => some list
  | count + 1, i =>
      let dest := partner rank i
      if dest < maxNumProcs ∧ table dest < maxNumProcs then
        markTargets table rank (Function.update list (table dest) 1) count (i + 1)
      else none

/-- The `target_rank_list` that a rank passes to `YMPI_Init_ranklist`. -/
def targetRankList (rank : Fin nprocs) : Option (ℕ → Int32) := do
  let table ← localRankToGlobalRank nprocs
  markTargets table (shuffledRank rank) (fun _ => 0) (allputallNumprocs - 1) 1

/-- A rank requests a connection to another one: `YMPID_Context_create` creates a queue pair for each
entry that is not 0. -/
def Lists (rank other : Fin nprocs) : Prop :=
  ∃ list, targetRankList rank = some list ∧ list other ≠ 0

/-- All ranks compute their lists, and each of them lists the ranks that list it. -/
def Symmetric (nprocs : ℕ) : Prop :=
  (∀ rank : Fin nprocs, targetRankList rank ≠ none) ∧
    ∀ rank other : Fin nprocs, Lists rank other ↔ Lists other rank

section Shuffle

/-- With distance 1 the ranks keep their order. -/
theorem shuffledCommWorld_eq (nprocs : ℕ) : shuffledCommWorld nprocs = List.finRange nprocs := by
  refine sortBy_eq ?_ (.refl _)
  refine (List.pairwise_lt_finRange nprocs).imp fun {first second} below => ?_
  refine Prod.Lex.toLex_lt_toLex.mpr (Or.inl ?_)
  simp only [shuffleRank, distance, Nat.mul_one, Nat.mod_eq_of_lt first.isLt,
    Nat.mod_eq_of_lt second.isLt]
  exact below

theorem shuffledRank_eq (rank : Fin nprocs) : shuffledRank rank = rank.val := by
  rw [shuffledRank, shuffledCommWorld_eq, List.idxOf_finRange]

/-- The table of the ranks there are, with the entries that have not been written. -/
def rankOr0 (nprocs q : ℕ) : ℕ :=
  if q < nprocs then q else 0

theorem localRankToGlobalRank_eq (few : nprocs ≤ maxNumProcs) :
    localRankToGlobalRank nprocs = some (rankOr0 nprocs) := by
  rw [localRankToGlobalRank, if_pos few]
  congr 1
  funext q
  rw [shuffledCommWorld_eq, rankOr0]
  split
  next rank found =>
    obtain ⟨below, rfl⟩ := List.getElem?_eq_some_iff.mp found
    rw [List.length_finRange] at below
    rw [if_pos below, List.getElem_finRange]
    rfl
  next missing =>
    rw [List.getElem?_eq_none_iff, List.length_finRange] at missing
    rw [if_neg (Nat.not_lt.mpr missing)]

end Shuffle

section Marks

variable {table : ℕ → ℕ} {list : ℕ → Int32} {rank count i : ℕ}

/-- A loop that stays inside the tables marks what they have for the partners of its turns. -/
theorem markTargets_ok (inside : ∀ turn, i ≤ turn → turn < i + count →
      partner rank turn < maxNumProcs ∧ table (partner rank turn) < maxNumProcs) :
    ∃ marked, markTargets table rank list count i = some marked ∧
      ∀ target, marked target ≠ 0 ↔ list target ≠ 0 ∨
        ∃ turn, i ≤ turn ∧ turn < i + count ∧ table (partner rank turn) = target := by
  induction count generalizing list i with
  | zero =>
      refine ⟨list, rfl, fun target => ⟨Or.inl, ?_⟩⟩
      rintro (marked | ⟨turn, above, below, -⟩)
      · exact marked
      · omega
  | succ count ih =>
      obtain ⟨marked, found, marks⟩ := @ih (Function.update list (table (partner rank i)) 1) (i + 1)
        fun turn above below => inside turn (by omega) (by omega)
      refine ⟨marked, ?_, fun target => ?_⟩
      · rw [markTargets, if_pos (inside i le_rfl (by omega))]
        exact found
      · rw [marks]
        constructor
        · rintro (before | ⟨turn, above, below, meets⟩)
          · by_cases now : target = table (partner rank i)
            · exact Or.inr ⟨i, le_rfl, by omega, now.symm⟩
            · rw [Function.update_of_ne now] at before
              exact Or.inl before
          · exact Or.inr ⟨turn, by omega, by omega, meets⟩
        · rintro (before | ⟨turn, above, below, meets⟩)
          · refine Or.inl ?_
            by_cases now : target = table (partner rank i)
            · rw [now, Function.update_self]
              decide
            · rwa [Function.update_of_ne now]
          · rcases Nat.eq_or_lt_of_le above with rfl | later
            · refine Or.inl ?_
              rw [← meets, Function.update_self]
              decide
            · exact Or.inr ⟨turn, later, by omega, meets⟩

/-- The partners of a rank are the others of its group. -/
theorem exists_partner_iff {q : ℕ} :
    (∃ turn, 1 ≤ turn ∧ turn < allputallNumprocs ∧ partner rank turn = q) ↔
      q ≠ rank ∧ q / allputallNumprocs = rank / allputallNumprocs := by
  constructor
  · rintro ⟨turn, pos, bound, rfl⟩
    refine ⟨partner_ne pos bound, ?_⟩
    simp only [partner, allputallNumprocs]
    omega
  · rintro ⟨apart, group⟩
    refine ⟨(q + allputallNumprocs - rank % allputallNumprocs) % allputallNumprocs, ?_, ?_, ?_⟩
    · simp only [allputallNumprocs] at group ⊢
      omega
    · exact Nat.mod_lt _ (by decide)
    · simp only [partner, allputallNumprocs] at group ⊢
      omega

end Marks

section Lists

variable {rank other : Fin nprocs}

theorem targetRankList_ok (few : nprocs ≤ maxNumProcs) (rank : Fin nprocs) :
    ∃ list, targetRankList rank = some list ∧ ∀ target, list target ≠ 0 ↔
      ∃ turn, 1 ≤ turn ∧ turn < allputallNumprocs ∧
        rankOr0 nprocs (partner rank turn) = target := by
  have whole : allputallNumprocs ∣ maxNumProcs := by decide
  obtain ⟨list, found, marks⟩ := @markTargets_ok (rankOr0 nprocs) (fun _ => 0) rank
    (allputallNumprocs - 1) 1 fun turn _ _ => by
      refine ⟨(partner_lt_iff whole _ _).mpr (rank.isLt.trans_le few), ?_⟩
      rw [rankOr0]
      split
      next below => exact below.trans_le few
      next => decide
  refine ⟨list, ?_, fun target => ?_⟩
  · rw [targetRankList, localRankToGlobalRank_eq few, shuffledRank_eq]
    exact found
  · rw [marks]
    simp only [ne_eq, not_true, false_or]
    exact Iff.rfl

/-- **The lists.** A rank lists the others of its group, and rank 0 if the group is incomplete. -/
theorem lists_iff (few : nprocs ≤ maxNumProcs) : Lists rank other ↔
    other ≠ rank ∧ other.val / allputallNumprocs = rank.val / allputallNumprocs ∨
      other.val = 0 ∧ nprocs < (rank.val / allputallNumprocs + 1) * allputallNumprocs := by
  obtain ⟨list, found, marks⟩ := targetRankList_ok few rank
  have listed : Lists rank other ↔ list other ≠ 0 := by
    refine ⟨?_, fun marked => ⟨list, found, marked⟩⟩
    rintro ⟨list', found', marked⟩
    cases found.symm.trans found'
    exact marked
  rw [listed, marks]
  constructor
  · rintro ⟨turn, pos, bound, meets⟩
    obtain ⟨apart, group⟩ := exists_partner_iff.mp ⟨turn, pos, bound, rfl⟩
    rw [rankOr0] at meets
    split at meets
    next below =>
      rw [meets] at apart group
      exact Or.inl ⟨fun same => apart (congrArg Fin.val same), group⟩
    next above =>
      refine Or.inr ⟨meets.symm, ?_⟩
      simp only [allputallNumprocs] at group ⊢
      omega
  · rintro (⟨apart, group⟩ | ⟨zero, incomplete⟩)
    · obtain ⟨turn, pos, bound, meets⟩ :=
        exists_partner_iff.mpr ⟨fun same => apart (Fin.ext same), group⟩
      refine ⟨turn, pos, bound, ?_⟩
      rw [meets, rankOr0, if_pos other.isLt]
    · have below := rank.isLt
      have last : ∃ turn, 1 ≤ turn ∧ turn < allputallNumprocs ∧
          partner rank turn = rank.val / allputallNumprocs * allputallNumprocs + 127 := by
        refine exists_partner_iff.mpr ⟨?_, ?_⟩
        · simp only [allputallNumprocs] at incomplete ⊢
          omega
        · simp only [allputallNumprocs]
          omega
      obtain ⟨turn, pos, bound, meets⟩ := last
      refine ⟨turn, pos, bound, ?_⟩
      rw [meets, rankOr0, if_neg, zero]
      simp only [allputallNumprocs] at incomplete ⊢
      omega

end Lists

/-- A rank that is listed lists the other one, if there is one group or all groups are complete. -/
theorem Lists.symm (few : nprocs ≤ maxNumProcs)
    (groups : nprocs ≤ allputallNumprocs ∨ allputallNumprocs ∣ nprocs) {rank other : Fin nprocs}
    (lists : Lists rank other) : Lists other rank := by
  have below := rank.isLt
  rw [lists_iff few] at lists ⊢
  rcases lists with ⟨apart, group⟩ | ⟨zero, incomplete⟩
  · exact Or.inl ⟨apart.symm, group.symm⟩
  · rcases groups with one | ⟨complete, rfl⟩
    · have group : other.val / allputallNumprocs = rank.val / allputallNumprocs := by
        simp only [allputallNumprocs] at one ⊢
        omega
      by_cases same : other = rank
      · rw [same] at zero ⊢
        exact Or.inr ⟨zero, incomplete⟩
      · exact Or.inl ⟨Ne.symm same, group.symm⟩
    · simp only [allputallNumprocs] at below incomplete
      omega

/-- With an incomplete group behind others the last rank lists rank 0, which does not list it. -/
theorem last_lists_first (few : nprocs ≤ maxNumProcs) (more : allputallNumprocs < nprocs)
    (incomplete : ¬ allputallNumprocs ∣ nprocs) :
    ∃ first last : Fin nprocs, Lists last first ∧ ¬ Lists first last := by
  refine ⟨⟨0, by omega⟩, ⟨nprocs - 1, by omega⟩, (lists_iff few).mpr (Or.inr ⟨rfl, ?_⟩),
    fun back => ?_⟩
  · simp only [allputallNumprocs] at incomplete ⊢
    omega
  · rcases (lists_iff few).mp back with ⟨-, group⟩ | ⟨zero, -⟩
    · simp only [allputallNumprocs] at more group
      omega
    · simp only [allputallNumprocs] at more zero
      omega

/-- **Symmetry.** All ranks compute lists, and each lists those that list it, if and only if the
tables have entries for all ranks and the ranks are in one group or all groups are complete. -/
theorem target_lists_symmetric_iff (nprocs : ℕ) : Symmetric nprocs ↔
    nprocs ≤ maxNumProcs ∧ (nprocs ≤ allputallNumprocs ∨ allputallNumprocs ∣ nprocs) := by
  constructor
  · rintro ⟨computed, symmetric⟩
    have few : nprocs ≤ maxNumProcs := by
      by_contra many
      have outside : targetRankList (⟨0, by omega⟩ : Fin nprocs) = none := by
        rw [targetRankList, localRankToGlobalRank, if_neg many]
        rfl
      exact computed _ outside
    refine ⟨few, ?_⟩
    by_contra neither
    obtain ⟨more, incomplete⟩ := not_or.mp neither
    obtain ⟨first, last, listed, missing⟩ := last_lists_first few (Nat.lt_of_not_le more) incomplete
    exact missing ((symmetric last first).mp listed)
  · rintro ⟨few, groups⟩
    refine ⟨fun rank => ?_, fun rank other => ⟨Lists.symm few groups, Lists.symm few groups⟩⟩
    obtain ⟨list, found, -⟩ := targetRankList_ok few rank
    rw [found]
    exact Option.some_ne_none list

/-- Of 129 ranks the last one lists rank 0, which does not list it. -/
theorem rank_128_unlisted : Lists (⟨128, by decide⟩ : Fin 129) ⟨0, by decide⟩ ∧
    ¬ Lists (⟨0, by decide⟩ : Fin 129) ⟨128, by decide⟩ := by
  have few : 129 ≤ maxNumProcs := by decide
  rw [lists_iff few, lists_iff few]
  decide

end Ympi.AllPutAll
