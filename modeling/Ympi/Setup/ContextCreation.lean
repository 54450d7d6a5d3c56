import Ympi.Foundation.Lifetimes
import Ympi.Setup.QpnLookup

/-! # What a failed creation leaves behind

`YMPID_Context_create` with the objects that it creates and releases. A call that fails
jumps to a label, from which the labels below fall through. Two jumps miss an object: the
one after `ibv_query_port` skips the device, and the one after a failed creation of a queue
pair skips the queue pairs created before.
-/

namespace Ympi.Setup

open Foundation Messaging

/-- The objects of the verbs layer that a context owns. -/
inductive VerbsObject (nprocs : ℕ) where
  | device
  | pd
  | cq
  | srq
  | mr
  | qp (peer : Fin nprocs)
  deriving DecidableEq

/-- Which of the calls before the creation of the queue pairs succeed. -/
structure Opening where
  openDevice : Bool
  queryPort : Bool
  allocPd : Bool
  createCq : Bool
  createSrq : Bool
  regMr : Bool
  deriving DecidableEq, Repr

/-- All of them do. -/
def Opening.complete (opening : Opening) : Bool :=
  opening.openDevice && opening.queryPort && opening.allocPd && opening.createCq &&
    opening.createSrq && opening.regMr

/-- How `YMPID_Context_create` ends. -/
inductive Ending (nprocs : ℕ) where
  | context (qpList : Fin nprocs → Option QueuePair) (qpRank : ℕ → Int)
  | null
  | assertion

/-- What `YMPID_Init` goes on with; it returns -1 for `NULL`. -/
def Ending.result {nprocs : ℕ} : Ending nprocs →
    Except Failure ((Fin nprocs → Option QueuePair) × (ℕ → Int))
  | context qpList qpRank => .ok (qpList, qpRank)
  | null => .error (.returns (-1))
  | assertion => .error .assertion

/-- A run of `YMPID_Context_create`. -/
structure Creation (nprocs : ℕ) where
  events : List (Lifetime (VerbsObject nprocs))
  ending : Ending nprocs

namespace Creation

variable {nprocs : ℕ}

/-- The run from the creation of `object` on. -/
def after (object : VerbsObject nprocs) (rest : Creation nprocs) : Creation nprocs :=
  { rest with events := .created object :: rest.events }

/-- The code at a label releases `object` and falls through to the next label. -/
def releasing (object : VerbsObject nprocs) (rest : Creation nprocs) : Creation nprocs :=
  { rest with events := .released object :: rest.events }

/-- `clean_ctx` -/
def cleanCtx : Creation nprocs :=
  ⟨[], .null⟩

/-- `clean_device` -/
def cleanDevice : Creation nprocs :=
  cleanCtx.releasing .device

/-- `clean_pd` -/
def cleanPd : Creation nprocs :=
  cleanDevice.releasing .pd

/-- `clean_cq` -/
def cleanCq : Creation nprocs :=
  cleanPd.releasing .cq

/-- `clean_srq` -/
def cleanSrq : Creation nprocs :=
  cleanCq.releasing .srq

/-- `clean_rx_win` -/
def cleanRxWin : Creation nprocs :=
  cleanSrq.releasing .mr

/-- `clean_qp_list` frees the list. -/
def cleanQpList : Creation nprocs :=
  cleanRxWin

/-- `clean_qp`: the loop over the entries of `qp_list`, from a list of peers on. -/
def cleanQp (qpList : Fin nprocs → Option QueuePair) : List (Fin nprocs) → Creation nprocs
  | [] => cleanQpList
  | peer :: rest =>
      match qpList peer with
      | some _ => (cleanQp qpList rest).releasing (.qp peer)
      | none => cleanQp qpList rest

end Creation

namespace Process

variable {nprocs : ℕ} (process : Process nprocs)

open Creation

/-- The loop that modifies the queue pairs to `INIT`, from a list of peers on. -/
def initLoop (qpRank : ℕ → Int) : List (Fin nprocs) → (Fin nprocs → Option QueuePair) →
    Creation nprocs
  | [], qpList => ⟨[], .context qpList qpRank⟩
  | peer :: rest, qpList =>
      match process.initQp peer () (qpList peer) with
      | .error _ => cleanQp qpList (List.finRange nprocs)
      | .ok (_, qp) => initLoop qpRank rest (Function.update qpList peer qp)

/-- The loop that creates the queue pairs, from a list of peers on, and what follows. -/
def createLoop : List (Fin nprocs) → (ℕ → Int) → (Fin nprocs → Option QueuePair) → Creation nprocs
  | [], qpRank, qpList => process.initLoop qpRank (List.finRange nprocs) qpList
  | peer :: rest, qpRank, qpList =>
      match process.createQp peer qpRank (qpList peer) with
      | .error .assertion => Creation.after (.qp peer) ⟨[], .assertion⟩
      | .error _ => cleanQpList
      | .ok (next, none) => createLoop rest next (Function.update qpList peer none)
      | .ok (next, some qp) =>
          (createLoop rest next (Function.update qpList peer (some qp))).after (.qp peer)

/-- `YMPID_Context_create` -/
def create (opening : Opening) : Creation nprocs :=
  if opening.openDevice then .after .device <|
    if opening.queryPort then
      if opening.allocPd then .after .pd <|
        if opening.createCq then .after .cq <|
          if opening.createSrq then .after .srq <|
            if opening.regMr then .after .mr <|
              process.createLoop (List.finRange nprocs) (fun _ => -1) fun _ => none
            else cleanSrq
          else cleanCq
        else cleanPd
      else cleanDevice
    else cleanCtx
  else cleanCtx

variable {process}

/-- A turn of the creation loop that fails: at the assertion after a queue pair was created,
or because the verbs layer refuses it. -/
theorem createQp_error {peer : Fin nprocs} {qpRank : ℕ → Int} {old : Option QueuePair}
    {failure : Failure} (failed : process.createQp peer qpRank old = .error failure) :
    failure = .assertion ∨ failure = .returns (-1) ∧ process.Refuses peer := by
  rw [createQp] at failed
  split at failed
  next listed =>
    split at failed
    next refused =>
      cases failed
      exact Or.inr ⟨rfl, listed, refused⟩
    next =>
      split at failed
      next => cases failed
      next =>
        cases failed
        exact Or.inl rfl
  next => cases failed

theorem cleanQp_ending (qpList : Fin nprocs → Option QueuePair) (peers : List (Fin nprocs)) :
    (cleanQp qpList peers).ending = .null := by
  induction peers with
  | nil => rfl
  | cons peer rest ih =>
      rw [cleanQp]
      cases qpList peer <;> exact ih

theorem initLoop_result (qpRank : ℕ → Int) (rest : List (Fin nprocs))
    (qpList : Fin nprocs → Option QueuePair) :
    (process.initLoop qpRank rest qpList).ending.result =
      (forEach process.initQp rest () qpList).map fun result => (result.2, qpRank) := by
  induction rest generalizing qpList with
  | nil => rfl
  | cons peer rest ih =>
      rw [initLoop, forEach]
      cases turn : process.initQp peer () (qpList peer) with
      | error failure =>
          rw [initQp_error turn]
          exact congrArg Ending.result (cleanQp_ending qpList _)
      | ok result => exact ih (Function.update qpList peer result.2)

theorem createLoop_result (rest : List (Fin nprocs)) (qpRank : ℕ → Int)
    (qpList : Fin nprocs → Option QueuePair) :
    (process.createLoop rest qpRank qpList).ending.result =
      (forEach process.createQp rest qpRank qpList).bind fun created =>
        (forEach process.initQp (List.finRange nprocs) () created.2).map fun result =>
          (result.2, created.1) := by
  induction rest generalizing qpRank qpList with
  | nil => exact initLoop_result qpRank (List.finRange nprocs) qpList
  | cons peer rest ih =>
      rw [createLoop, forEach]
      cases turn : process.createQp peer qpRank (qpList peer) with
      | error failure =>
          rcases createQp_error turn with rfl | ⟨rfl, -⟩
          · rfl
          · rfl
      | ok result =>
          obtain ⟨next, value⟩ := result
          cases value with
          | none => exact ih next (Function.update qpList peer none)
          | some qp => exact ih next (Function.update qpList peer (some qp))

/-- **Refinement.** The run that tracks objects returns what the creation returns that the
setup of connections goes on with. -/
theorem create_result {opening : Opening} (same : process.opened = opening.complete) :
    (process.create opening).ending.result = process.contextCreate := by
  rw [contextCreate_eq, same]
  match opening with
  | ⟨false, _, _, _, _, _⟩ => rfl
  | ⟨true, false, _, _, _, _⟩ => rfl
  | ⟨true, true, false, _, _, _⟩ => rfl
  | ⟨true, true, true, false, _, _⟩ => rfl
  | ⟨true, true, true, true, false, _⟩ => rfl
  | ⟨true, true, true, true, true, false⟩ => rfl
  | ⟨true, true, true, true, true, true⟩ =>
      refine (createLoop_result (List.finRange nprocs) (fun _ => -1) fun _ => none).trans ?_
      change process.createQps.bind _ = process.createQps.bind _
      refine congrArg process.createQps.bind (funext fun created => ?_)
      cases modified : forEach process.initQp (List.finRange nprocs) () created.2 with
      | error failure => simp only [bind, Except.bind, modified, Except.map]
      | ok result => simp only [bind, Except.bind, modified, Except.map, pure, Except.pure]

/-- The objects that `clean_rx_win` and the labels below it release. -/
def windowObjects (nprocs : ℕ) : List (VerbsObject nprocs) :=
  [.mr, .srq, .cq, .pd, .device]

open Lifetime

/-- `clean_qp` releases the queue pairs of the list and then the other objects. -/
theorem cleanQp_eq (qpList : Fin nprocs → Option QueuePair) (peers : List (Fin nprocs)) :
    cleanQp qpList peers = ⟨unwinding [] ((peers.filter fun peer => (qpList peer).isSome).map .qp ++
      windowObjects nprocs), .null⟩ := by
  induction peers with
  | nil => rfl
  | cons peer rest ih =>
      rw [cleanQp]
      cases held : qpList peer with
      | none => rw [ih, List.filter_cons_of_neg (by simp [held])]
      | some qp =>
          rw [ih, List.filter_cons_of_pos (by simp [held])]
          rfl

/-- The loop that modifies the queue pairs ends with the context, or releases the queue pairs
that were there before. -/
theorem initLoop_cases (process : Process nprocs) (qpRank : ℕ → Int) (rest : List (Fin nprocs))
    (qpList : Fin nprocs → Option QueuePair) :
    (∃ final, process.initLoop qpRank rest qpList = ⟨[], .context final qpRank⟩) ∨
      ∃ final, (∀ peer, (final peer).isSome = (qpList peer).isSome) ∧
        process.initLoop qpRank rest qpList = cleanQp final (List.finRange nprocs) := by
  induction rest generalizing qpList with
  | nil => exact Or.inl ⟨qpList, rfl⟩
  | cons peer rest ih =>
      rw [initLoop]
      cases turn : process.initQp peer () (qpList peer) with
      | error failure => exact Or.inr ⟨qpList, fun _ => rfl, rfl⟩
      | ok result =>
          have kept : result.2.isSome = (qpList peer).isSome := by
            rw [initQp_ok turn, Option.isSome_map]
          rcases ih (Function.update qpList peer result.2) with ⟨final, done⟩ | ⟨final, held, done⟩
          · exact Or.inl ⟨final, done⟩
          · refine Or.inr ⟨final, fun other => ?_, done⟩
            rw [held other]
            by_cases same : other = peer
            · rw [same, Function.update_self, kept]
            · rw [Function.update_of_ne same]

/-- The queue pairs created for the peers of a list. -/
def madeFor (process : Process nprocs) (peers : List (Fin nprocs)) : List (VerbsObject nprocs) :=
  (peers.filter process.lists).map .qp

theorem madeFor_cons (peer : Fin nprocs) (peers : List (Fin nprocs)) :
    process.madeFor (peer :: peers) = process.madeFor [peer] ++ process.madeFor peers := by
  rw [madeFor, ← List.singleton_append, List.filter_append, List.map_append]
  rfl

/-- A turn of the creation loop that succeeds, and the run from the next turn on. -/
theorem createLoop_cons {peer : Fin nprocs} {qpRank next : ℕ → Int}
    {qpList : Fin nprocs → Option QueuePair} {value : Option QueuePair} (rest : List (Fin nprocs))
    (turn : process.createQp peer qpRank (qpList peer) = .ok (next, value)) :
    ¬ process.Refuses peer ∧ value.isSome = process.lists peer ∧
      ∀ made gone ending, process.createLoop rest next (Function.update qpList peer value) =
        ⟨unwinding made gone, ending⟩ → process.createLoop (peer :: rest) qpRank qpList =
          ⟨unwinding (process.madeFor [peer] ++ made) gone, ending⟩ := by
  rcases createQp_ok turn with ⟨unlisted, rfl⟩ | ⟨listed, number, assigned, rfl⟩
  · refine ⟨fun refuses => Bool.false_ne_true (unlisted.symm.trans refuses.1), unlisted.symm, ?_⟩
    intro made gone ending done
    have nothing : process.madeFor [peer] = [] := by simp [madeFor, unlisted]
    simp only [createLoop, turn, nothing, List.nil_append, done]
  · refine ⟨fun refuses => Option.some_ne_none _ (assigned.symm.trans refuses.2), listed.symm, ?_⟩
    intro made gone ending done
    have one : process.madeFor [peer] = [.qp peer] := by simp [madeFor, listed]
    simp only [createLoop, turn, one, done]
    rfl

/-- The creation loop is refused a queue pair and skips those created before, or it creates all
of them and the modification of one fails, or nothing is released. -/
theorem createLoop_cases (process : Process nprocs) {rest : List (Fin nprocs)} (nodup : rest.Nodup)
    (qpRank : ℕ → Int) (qpList : Fin nprocs → Option QueuePair) :
    (∃ before peer later, rest = before ++ peer :: later ∧ process.Refuses peer ∧
      (∀ earlier ∈ before, ¬ process.Refuses earlier) ∧
      process.createLoop rest qpRank qpList =
        ⟨unwinding (process.madeFor before) (windowObjects nprocs), .null⟩) ∨
    ((∀ peer ∈ rest, ¬ process.Refuses peer) ∧ ∃ final : Fin nprocs → Option QueuePair,
      (∀ peer ∈ rest, (final peer).isSome = process.lists peer) ∧
      (∀ peer, peer ∉ rest → (final peer).isSome = (qpList peer).isSome) ∧
      process.createLoop rest qpRank qpList = ⟨unwinding (process.madeFor rest)
        (((List.finRange nprocs).filter fun peer => (final peer).isSome).map .qp ++
          windowObjects nprocs), .null⟩) ∨
    ∃ made ending, (∀ object ∈ made, ∃ peer, object = .qp peer) ∧ ending ≠ .null ∧
      process.createLoop rest qpRank qpList = ⟨unwinding made [], ending⟩ := by
  induction rest generalizing qpRank qpList with
  | nil =>
      rcases process.initLoop_cases qpRank (List.finRange nprocs) qpList with
        ⟨final, done⟩ | ⟨final, held, done⟩
      · exact Or.inr (Or.inr ⟨[], .context final qpRank, by simp, by simp, done⟩)
      · refine Or.inr (Or.inl ⟨by simp, final, by simp, fun peer _ => held peer, ?_⟩)
        exact done.trans (cleanQp_eq final _)
  | cons peer rest ih =>
      obtain ⟨fresh, distinct⟩ := List.nodup_cons.mp nodup
      cases turn : process.createQp peer qpRank (qpList peer) with
      | error failure =>
          rcases createQp_error turn with rfl | ⟨rfl, refuses⟩
          · refine Or.inr (Or.inr ⟨[.qp peer], .assertion, by simp, by simp, ?_⟩)
            simp only [createLoop, turn]
            rfl
          · refine Or.inl ⟨[], peer, rest, rfl, refuses, by simp, ?_⟩
            simp only [createLoop, turn]
            rfl
      | ok result =>
          obtain ⟨next, value⟩ := result
          obtain ⟨accepts, created, continues⟩ := createLoop_cons rest turn
          rcases ih distinct next (Function.update qpList peer value) with
            ⟨before, refused, later, rfl, refuses, none, done⟩ | ⟨none, final, own, others, done⟩ |
            ⟨made, ending, pairs, open', done⟩
          · refine Or.inl ⟨peer :: before, refused, later, rfl, refuses,
              List.forall_mem_cons.mpr ⟨accepts, none⟩, ?_⟩
            rw [madeFor_cons]
            exact continues _ _ _ done
          · refine Or.inr (Or.inl ⟨List.forall_mem_cons.mpr ⟨accepts, none⟩, final, ?_, ?_, ?_⟩)
            · refine List.forall_mem_cons.mpr ⟨?_, own⟩
              rw [others peer fresh, Function.update_self, created]
            · intro other outside
              obtain ⟨apart, outside⟩ := not_or.mp (List.mem_cons.not.mp outside)
              rw [others other outside, Function.update_of_ne apart]
            · rw [madeFor_cons]
              exact continues _ _ _ done
          · refine Or.inr (Or.inr ⟨process.madeFor [peer] ++ made, ending, ?_, open',
              continues _ _ _ done⟩)
            intro object member
            rcases List.mem_append.mp member with member | member
            · obtain ⟨other, -, rfl⟩ := List.mem_map.mp member
              exact ⟨other, rfl⟩
            · exact pairs object member

/-- The objects that a failed creation does not release: the device if the port cannot be
queried, and the queue pairs created before the one that is refused. -/
inductive Skipped (process : Process nprocs) (opening : Opening) : VerbsObject nprocs → Prop where
  | device (opened : opening.openDevice = true) (failed : opening.queryPort = false) :
      Skipped process opening .device
  | qp {peer earlier : Fin nprocs} {number : UInt32} (complete : opening.complete = true)
      (refuses : process.Refuses peer) (before : earlier < peer)
      (creates : process.Creates earlier number) : Skipped process opening (.qp earlier)

/-- The run creates some objects and then releases some of them; if it returns `NULL`, the
others are those skipped. -/
def Unwinds (process : Process nprocs) (opening : Opening) (creation : Creation nprocs) : Prop :=
  ∃ made gone, creation.events = unwinding made gone ∧ gone.Nodup ∧
    (∀ object ∈ gone, object ∈ made) ∧
    (creation.ending = .null → ∀ object, object ∈ made ∧ object ∉ gone ↔
      process.Skipped opening object)

/-- Nothing is skipped before the creation of the queue pairs, the device apart. -/
theorem not_skipped {opening : Opening} {object : VerbsObject nprocs}
    (queried : opening.openDevice = true → opening.queryPort = true)
    (incomplete : opening.complete = false) : ¬ process.Skipped opening object := by
  intro skipped
  cases skipped with
  | device opened failed => exact Bool.false_ne_true (failed.symm.trans (queried opened))
  | qp complete => exact Bool.false_ne_true (incomplete.symm.trans complete)

/-- A failure before the creation of the queue pairs releases what has been created. -/
theorem unwinds_all {opening : Opening} (made gone : List (VerbsObject nprocs))
    (queried : opening.openDevice = true → opening.queryPort = true)
    (incomplete : opening.complete = false) (nodup : gone.Nodup)
    (same : ∀ object, object ∈ gone ↔ object ∈ made) :
    process.Unwinds opening ⟨unwinding made gone, .null⟩ := by
  refine ⟨made, gone, rfl, nodup, fun object => (same object).mp, fun _ object => ?_⟩
  refine iff_of_false ?_ (not_skipped queried incomplete)
  rw [same object]
  exact and_not_self

/-- The queue pairs created before the refused one are those skipped. -/
theorem mem_madeFor_before {peer : Fin nprocs} {before later : List (Fin nprocs)}
    (split : List.finRange nprocs = before ++ peer :: later) (refuses : process.Refuses peer)
    (none : ∀ earlier ∈ before, ¬ process.Refuses earlier) {opening : Opening}
    (complete : opening.complete = true) (queried : opening.queryPort = true)
    (object : VerbsObject nprocs) :
    object ∈ process.madeFor before ↔ process.Skipped opening object := by
  refine ⟨fun member => ?_, fun skipped => ?_⟩
  · obtain ⟨earlier, listed, rfl⟩ := List.mem_map.mp member
    obtain ⟨earlierBefore, lists⟩ := List.mem_filter.mp listed
    have less := (mem_before_iff split earlier).mp earlierBefore
    cases assigned : process.qpNum earlier with
    | none => exact absurd ⟨lists, assigned⟩ (none earlier earlierBefore)
    | some number =>
        exact .qp complete refuses less ⟨lists, assigned, fun first below =>
          none first ((mem_before_iff split first).mpr (below.trans less))⟩
  · cases skipped with
    | device opened failed => exact absurd (queried.symm.trans failed) (by decide)
    | @qp other earlier number _ refuses' less creates =>
        obtain ⟨lists, assigned, first⟩ := creates
        have below : earlier < peer := by
          rcases lt_trichotomy earlier peer with less | rfl | above
          · exact less
          · exact absurd (assigned.symm.trans refuses.2) (Option.some_ne_none number)
          · exact absurd refuses (first peer above)
        exact List.mem_map_of_mem (List.mem_filter.mpr
          ⟨(mem_before_iff split earlier).mpr below, lists⟩)

/-- The objects created before the queue pairs, in the order of their creation. -/
def openedObjects (nprocs : ℕ) : List (VerbsObject nprocs) :=
  [.device, .pd, .cq, .srq, .mr]

theorem mem_openedObjects_iff (object : VerbsObject nprocs) :
    object ∈ openedObjects nprocs ↔ object ∈ windowObjects nprocs := by
  cases object <;> simp [openedObjects, windowObjects]

theorem qp_not_mem_windowObjects (peer : Fin nprocs) : .qp peer ∉ windowObjects nprocs := by
  simp [windowObjects]

/-- The creation loop, when all calls before it have succeeded. -/
theorem createLoop_unwinds {opening : Opening} (complete : opening.complete = true)
    (queried : opening.queryPort = true) {events : List (Lifetime (VerbsObject nprocs))}
    {ending : Ending nprocs}
    (run : process.createLoop (List.finRange nprocs) (fun _ => -1) (fun _ => none) =
      ⟨events, ending⟩) :
    process.Unwinds opening ⟨(openedObjects nprocs).map .created ++ events, ending⟩ := by
  have extend (made gone : List (VerbsObject nprocs)) :
      (openedObjects nprocs).map .created ++ unwinding made gone =
        unwinding (openedObjects nprocs ++ made) gone := by
    rw [unwinding, unwinding, List.map_append, List.append_assoc]
  have distinct : (windowObjects nprocs).Nodup := by simp [windowObjects]
  rcases process.createLoop_cases (List.nodup_finRange nprocs) (fun _ => -1)
    (fun _ => none) with ⟨before, peer, later, split, refuses, none, done⟩ |
    ⟨none, final, own, -, done⟩ | ⟨made, ending', -, open', done⟩
  · cases run.symm.trans done
    refine ⟨openedObjects nprocs ++ process.madeFor before, windowObjects nprocs, extend _ _, distinct,
      fun object member => List.mem_append_left _ ((mem_openedObjects_iff object).mpr member), ?_⟩
    intro _ object
    rw [← mem_madeFor_before split refuses none complete queried, List.mem_append,
      mem_openedObjects_iff]
    refine ⟨fun both => both.1.resolve_left both.2, fun member => ⟨Or.inr member, ?_⟩⟩
    obtain ⟨earlier, -, rfl⟩ := List.mem_map.mp member
    exact qp_not_mem_windowObjects earlier
  · cases run.symm.trans done
    have all : (List.finRange nprocs).filter (fun peer => (final peer).isSome) =
        (List.finRange nprocs).filter process.lists :=
      List.filter_congr fun peer member => own peer member
    rw [all]
    have same (object : VerbsObject nprocs) :
        object ∈ process.madeFor (List.finRange nprocs) ++ windowObjects nprocs ↔
          object ∈ openedObjects nprocs ++ process.madeFor (List.finRange nprocs) := by
      rw [List.mem_append, List.mem_append, mem_openedObjects_iff, or_comm]
    refine ⟨_, _, extend _ _, ?_, fun object => (same object).mp, fun _ object => ?_⟩
    · refine List.nodup_append'.mpr ⟨?_, distinct, ?_⟩
      · exact ((List.nodup_finRange nprocs).filter _).map fun _ _ => VerbsObject.qp.inj
      · intro object member
        obtain ⟨peer, -, rfl⟩ := List.mem_map.mp member
        exact qp_not_mem_windowObjects peer
    · refine iff_of_false (fun both => both.2 ((same object).mpr both.1)) fun skipped => ?_
      cases skipped with
      | device opened failed => exact absurd (queried.symm.trans failed) (by decide)
      | @qp peer _ _ _ refuses => exact none peer (List.mem_finRange peer) refuses
  · cases run.symm.trans done
    exact ⟨_, [], extend made [], List.nodup_nil, by simp, fun null => absurd null open'⟩

/-- Every run of `YMPID_Context_create` creates some objects and then releases some of them. -/
theorem create_unwinds (process : Process nprocs) (opening : Opening) :
    process.Unwinds opening (process.create opening) := by
  match opening with
  | ⟨false, _, _, _, _, _⟩ => exact unwinds_all [] [] (by simp) rfl (by simp) (by simp)
  | ⟨true, false, _, _, _, _⟩ =>
      refine ⟨[.device], [], rfl, List.nodup_nil, by simp, fun _ object => ⟨?_, fun skipped => ?_⟩⟩
      · rintro ⟨member, -⟩
        rw [List.mem_singleton.mp member]
        exact .device rfl rfl
      · cases skipped with
        | device => simp
        | qp complete => exact absurd complete Bool.false_ne_true
  | ⟨true, true, false, _, _, _⟩ =>
      exact unwinds_all [.device] [.device] (by simp) rfl (by simp) (by simp)
  | ⟨true, true, true, false, _, _⟩ =>
      exact unwinds_all [.device, .pd] [.pd, .device] (by simp) rfl (by simp) (by simp [or_comm])
  | ⟨true, true, true, true, false, _⟩ =>
      refine unwinds_all [.device, .pd, .cq] [.cq, .pd, .device] (by simp) rfl (by simp) ?_
      intro object
      simp only [List.mem_cons, List.not_mem_nil, or_false]
      tauto
  | ⟨true, true, true, true, true, false⟩ =>
      refine unwinds_all [.device, .pd, .cq, .srq] [.srq, .cq, .pd, .device] (by simp) rfl
        (by simp) ?_
      intro object
      simp only [List.mem_cons, List.not_mem_nil, or_false]
      tauto
  | ⟨true, true, true, true, true, true⟩ => exact createLoop_unwinds rfl rfl rfl

/-- The failing call is not `ibv_query_port`, and not the creation of a queue pair after
another one. -/
def FailsClean (process : Process nprocs) (opening : Opening) : Prop :=
  (opening.openDevice = true → opening.queryPort = true) ∧
    (opening.complete = true → ∀ peer, process.Refuses peer → ∀ earlier < peer, ∀ number,
      ¬ process.Creates earlier number)

theorem failsClean_iff {opening : Opening} :
    process.FailsClean opening ↔ ∀ object, ¬ process.Skipped opening object := by
  refine ⟨fun clean object skipped => ?_, fun none => ⟨fun opened => ?_, ?_⟩⟩
  · cases skipped with
    | device opened failed => exact absurd ((clean.1 opened).symm.trans failed) (by decide)
    | qp complete refuses before creates => exact clean.2 complete _ refuses _ before _ creates
  · by_contra failed
    exact none .device (.device opened (Bool.eq_false_iff.mpr failed))
  · exact fun complete peer refuses earlier before number creates =>
      none (.qp earlier) (.qp complete refuses before creates)

/-- A run of `YMPID_Context_create` releases an object at most once, and only after it has
created it. -/
theorem create_orderly (process : Process nprocs) (opening : Opening) :
    Orderly (process.create opening).events := by
  obtain ⟨made, gone, same, distinct, own, -⟩ := process.create_unwinds opening
  rw [same]
  exact orderly_unwinding distinct own

/-- What a failed creation leaves behind. -/
theorem create_leaks_iff {opening : Opening} (failed : (process.create opening).ending = .null)
    (object : VerbsObject nprocs) :
    Leaks (process.create opening).events object ↔ process.Skipped opening object := by
  obtain ⟨made, gone, same, -, -, skipped⟩ := process.create_unwinds opening
  rw [same, leaks_unwinding]
  exact skipped failed object

/-- **Failed creations.** A creation that returns `NULL` has released every object that it
created exactly once, and no other one, if and only if the call that failed was neither
`ibv_query_port` nor the creation of a queue pair after another one. -/
theorem failed_creation_settles_iff (process : Process nprocs) (opening : Opening)
    (failed : (process.create opening).ending = .null) :
    Settled (process.create opening).events ↔ process.FailsClean opening := by
  rw [(process.create_orderly opening).settled_iff, failsClean_iff]
  exact forall_congr' fun object => (create_leaks_iff failed object).not

/-- A process whose second queue pair cannot be modified to `INIT`. -/
def lateFailure : Process 2 :=
  { ofNumbers 3 5 (by decide) with toInit := fun rank => rank.val = 0 }

/-- A process that is refused its second queue pair. -/
def secondRefused : Process 2 :=
  { ofNumbers 3 5 (by decide) with
    qpNum := fun rank => if rank.val = 0 then some 3 else none
    qpNum_lt := fun rank number assigned => by
      split at assigned
      · cases assigned
        decide
      · cases assigned }

/-- A failure to modify a queue pair releases both of them. -/
theorem failed_creation_settles_iff_init :
    Settled (lateFailure.create ⟨true, true, true, true, true, true⟩).events := by
  refine (failed_creation_settles_iff lateFailure ⟨true, true, true, true, true, true⟩ rfl).mpr ?_
  refine ⟨fun _ => rfl, fun _ peer refuses => ?_⟩
  have refused := refuses.2
  simp only [lateFailure, ofNumbers] at refused
  split at refused
  · cases refused
  · cases refused

/-- The device stays open when the port cannot be queried, and the first queue pair stays when
the second one is refused. -/
theorem failed_creation_leaks :
    ((lateFailure.create ⟨true, false, true, true, true, true⟩).ending = .null ∧
      Leaks (lateFailure.create ⟨true, false, true, true, true, true⟩).events .device ∧
      ¬ Settled (lateFailure.create ⟨true, false, true, true, true, true⟩).events) ∧
    (secondRefused.create ⟨true, true, true, true, true, true⟩).ending = .null ∧
      Leaks (secondRefused.create ⟨true, true, true, true, true, true⟩).events (.qp 0) ∧
      ¬ Settled (secondRefused.create ⟨true, true, true, true, true, true⟩).events := by
  refine ⟨⟨rfl, ⟨by decide, by decide⟩, fun settled => ?_⟩, rfl, ⟨by decide, by decide⟩,
    fun settled => ?_⟩
  · exact absurd (settled .device) (by decide)
  · exact absurd (settled (.qp 0)) (by decide)

end Process

end Ympi.Setup
