import Ympi.Setup.ContextCreation

/-! # What a finalized process leaves behind

`YMPI_Finalize` destroys the context that `YMPID_Context_create` returned. Between the two a
process has the objects of the verbs layer that it needs for its calls, and afterwards none.
-/

namespace Ympi.Setup

open Foundation Messaging Lifetime

variable {nprocs : ℕ}

/-- `object` is created with `other`, which the verbs layer does not release before it. -/
inductive VerbsObject.Needs : VerbsObject nprocs → VerbsObject nprocs → Prop where
  | pd : Needs .pd .device
  | cq : Needs .cq .device
  | srq : Needs .srq .pd
  | mr : Needs .mr .pd
  | qpPd (peer : Fin nprocs) : Needs (.qp peer) .pd
  | qpCq (peer : Fin nprocs) : Needs (.qp peer) .cq
  | qpSrq (peer : Fin nprocs) : Needs (.qp peer) .srq

/-- The place of an object in the order of creation. -/
def VerbsObject.place : VerbsObject nprocs → ℕ
  | .device => 0
  | .pd => 1
  | .cq => 2
  | .srq => 3
  | .mr => 4
  | .qp _ => 5

/-- An object is created after those that it needs. -/
theorem VerbsObject.Needs.place_lt {object other : VerbsObject nprocs}
    (needs : object.Needs other) : other.place < object.place := by
  cases needs <;> simp [VerbsObject.place]

/-- The loop of `YMPID_Context_destroy` over the entries of `qp_list`. -/
def destroyQps (qpList : Fin nprocs → Option QueuePair) :
    List (Fin nprocs) → List (Lifetime (VerbsObject nprocs))
  | [] => []
  | peer :: rest =>
      if (qpList peer).isSome then .released (.qp peer) :: destroyQps qpList rest
      else destroyQps qpList rest

/-- `YMPID_Context_destroy` -/
def contextDestroy (qpList : Fin nprocs → Option QueuePair) : List (Lifetime (VerbsObject nprocs)) :=
  destroyQps qpList (List.finRange nprocs) ++
    [.released .mr, .released .srq, .released .cq, .released .pd, .released .device]

namespace Process

variable {process : Process nprocs} {qpList final : Fin nprocs → Option QueuePair}
  {qpRank qpRank' : ℕ → Int}

/-- A context comes out of the second loop with the queue pairs that went into it. -/
theorem initLoop_context {rest : List (Fin nprocs)}
    (done : (process.initLoop qpRank rest qpList).ending = .context final qpRank') :
    (process.initLoop qpRank rest qpList).events = [] ∧
      ∀ peer, (final peer).isSome = (qpList peer).isSome := by
  induction rest generalizing qpList with
  | nil =>
      cases done
      exact ⟨rfl, fun _ => rfl⟩
  | cons peer rest ih =>
      rw [initLoop] at done ⊢
      cases turn : process.initQp peer () (qpList peer) with
      | error failure =>
          rw [turn] at done
          cases (cleanQp_ending qpList _).symm.trans done
      | ok result =>
          rw [turn] at done
          obtain ⟨none, kept⟩ := ih done
          refine ⟨none, ?_⟩
          intro other
          rw [kept]
          by_cases same : other = peer
          · rw [same, Function.update_self, initQp_ok turn, Option.isSome_map]
          · rw [Function.update_of_ne same]

/-- A context comes out of the first loop with the queue pairs that the loop has created. -/
theorem createLoop_context {rest : List (Fin nprocs)} (nodup : rest.Nodup)
    (done : (process.createLoop rest qpRank qpList).ending = .context final qpRank') :
    process.createLoop rest qpRank qpList =
        ⟨unwinding (process.madeFor rest) [], .context final qpRank'⟩ ∧
      (∀ peer ∈ rest, (final peer).isSome = process.lists peer) ∧
      ∀ peer, peer ∉ rest → (final peer).isSome = (qpList peer).isSome := by
  induction rest generalizing qpRank qpList with
  | nil =>
      obtain ⟨none, kept⟩ := initLoop_context done
      refine ⟨?_, fun peer member => absurd member List.not_mem_nil, fun peer _ => kept peer⟩
      exact congrArg₂ Creation.mk none done
  | cons peer rest ih =>
      obtain ⟨fresh, distinct⟩ := List.nodup_cons.mp nodup
      cases turn : process.createQp peer qpRank (qpList peer) with
      | error failure =>
          rw [createLoop, turn] at done
          cases failure <;> cases done
      | ok result =>
          obtain ⟨next, value⟩ := result
          obtain ⟨-, created, continues⟩ := createLoop_cons rest turn
          have goesOn : (process.createLoop rest next (Function.update qpList peer value)).ending =
              .context final qpRank' := by
            rw [createLoop, turn] at done
            cases value <;> exact done
          obtain ⟨run, own, others⟩ := ih distinct goesOn
          refine ⟨?_, List.forall_mem_cons.mpr ⟨?_, own⟩, ?_⟩
          · rw [madeFor_cons]
            exact continues _ _ _ run
          · rw [others peer fresh, Function.update_self, created]
          · intro other outside
            obtain ⟨apart, outside⟩ := not_or.mp (List.mem_cons.not.mp outside)
            rw [others other outside, Function.update_of_ne apart]

/-- The objects that `YMPID_Context_destroy` releases. -/
def destroyed (process : Process nprocs) : List (VerbsObject nprocs) :=
  process.madeFor (List.finRange nprocs) ++ windowObjects nprocs

theorem destroyed_nodup (process : Process nprocs) : process.destroyed.Nodup := by
  refine List.nodup_append'.mpr ⟨?_, by simp [windowObjects], ?_⟩
  · exact ((List.nodup_finRange nprocs).filter _).map fun _ _ => VerbsObject.qp.inj
  · intro object member
    obtain ⟨peer, -, rfl⟩ := List.mem_map.mp member
    exact qp_not_mem_windowObjects peer

/-- The queue pairs go first, and then the others in the reverse order of their creation. -/
theorem destroyed_ordered (process : Process nprocs) :
    process.destroyed.Pairwise fun first later => ¬ later.Needs first := by
  have descending : process.destroyed.Pairwise fun first later => later.place ≤ first.place := by
    refine List.pairwise_append.mpr ⟨?_, by simp [windowObjects, VerbsObject.place], ?_⟩
    · exact List.pairwise_map.mpr (List.pairwise_of_forall fun _ _ => le_rfl)
    · intro first member later _
      obtain ⟨peer, -, rfl⟩ := List.mem_map.mp member
      cases later <;> simp [VerbsObject.place]
  apply descending.imp
  intro first later less needs
  exact Nat.not_lt.mpr less (VerbsObject.Needs.place_lt needs)

theorem destroyQps_eq (same : ∀ peer, (final peer).isSome = process.lists peer)
    (peers : List (Fin nprocs)) :
    destroyQps final peers = (process.madeFor peers).map .released := by
  induction peers with
  | nil => rfl
  | cons peer rest ih =>
      rw [madeFor_cons, List.map_append, destroyQps, ih, same]
      cases listed : process.lists peer <;> simp [madeFor, listed]

/-- The life of a context. -/
theorem create_destroy_eq {opening : Opening}
    (done : (process.create opening).ending = .context final qpRank') :
    (process.create opening).events ++ contextDestroy final =
      unwinding (openedObjects nprocs ++ process.madeFor (List.finRange nprocs))
        process.destroyed := by
  match opening with
  | ⟨false, _, _, _, _, _⟩ | ⟨true, false, _, _, _, _⟩ | ⟨true, true, false, _, _, _⟩
  | ⟨true, true, true, false, _, _⟩ | ⟨true, true, true, true, false, _⟩
  | ⟨true, true, true, true, true, false⟩ => cases done
  | ⟨true, true, true, true, true, true⟩ =>
      obtain ⟨run, own, -⟩ := createLoop_context (List.nodup_finRange nprocs) done
      have same (peer : Fin nprocs) := own peer (List.mem_finRange peer)
      have events : (process.create ⟨true, true, true, true, true, true⟩).events =
          (openedObjects nprocs).map .created ++
            (process.createLoop (List.finRange nprocs) (fun _ => -1) fun _ => none).events := rfl
      rw [events, run, contextDestroy, destroyQps_eq same, destroyed, unwinding, unwinding,
        List.map_append, List.map_append, List.append_assoc, List.append_assoc]
      rfl

end Process

/-- **The life of a context.** A process that initializes and then finalizes releases each object
of the verbs layer that it has created exactly once, and none while another one needs it. -/
theorem context_life (process : Process nprocs) (opening : Opening)
    {qpList : Fin nprocs → Option QueuePair} {qpRank : ℕ → Int}
    (made : (process.create opening).ending = .context qpList qpRank) :
    Orderly ((process.create opening).events ++ contextDestroy qpList) ∧
      Settled ((process.create opening).events ++ contextDestroy qpList) ∧
      Nested VerbsObject.Needs ((process.create opening).events ++ contextDestroy qpList) := by
  rw [Process.create_destroy_eq made]
  have same (object : VerbsObject nprocs) : object ∈ process.destroyed ↔
      object ∈ Process.openedObjects nprocs ++ process.madeFor (List.finRange nprocs) := by
    rw [Process.destroyed, List.mem_append, List.mem_append, Process.mem_openedObjects_iff, or_comm]
  have orderly := orderly_unwinding process.destroyed_nodup fun object => (same object).mp
  refine ⟨orderly, ?_, ?_⟩
  · rw [orderly.settled_iff]
    intro object leaks
    obtain ⟨born, missing⟩ := leaks_unwinding.mp leaks
    exact missing ((same object).mpr born)
  · apply nested_unwinding (fun object => (same object).mpr) process.destroyed_ordered
    intro object needs
    exact lt_irrefl _ needs.place_lt

/-- A process with two queue pairs. -/
theorem context_life_pair : ∃ qpList qpRank,
    ((Process.ofNumbers 3 5 (by decide)).create ⟨true, true, true, true, true, true⟩).ending =
      .context qpList qpRank ∧
    Settled (((Process.ofNumbers 3 5 (by decide)).create
      ⟨true, true, true, true, true, true⟩).events ++ contextDestroy qpList) := by
  refine ⟨_, _, rfl, ?_⟩
  exact (context_life (Process.ofNumbers 3 5 (by decide)) ⟨true, true, true, true, true, true⟩
    rfl).2.1

end Ympi.Setup
