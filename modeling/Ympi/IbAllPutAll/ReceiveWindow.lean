import Mathlib.Data.Int.Order.Basic
import Mathlib.Logic.Function.Basic
import Ympi.Foundation.Ring

/-! # The receive window of `iballputall`

The slots of the receive buffer form a ring. The window says which of them are posted to the
shared receive queue: `len` of them from slot `idx` on. A refill posts all the others with one
call, for which it writes them into the first work requests of a list and cuts the links of
the list behind the last of them. The window is refilled when it is empty, and at each flush.
-/

namespace Ympi.IbAllPutAll

open Foundation

/-- `MAX_SRQ_WR`. -/
def maxSrqWr : ℕ := 1024

/-- Why a process does not get to the end of a function. -/
inductive Fault where
  /-- A read or write outside an array. -/
  | outOfBounds
  /-- A list of work requests that does not end. -/
  | endless
  | assertion
  deriving DecidableEq, Repr

/-- A receive work request with its scatter entry: the `id` of its `wr_id`, the slot of `rx_buf`
that `addr` points to, and the entry that `next` points to. -/
structure RecvWr where
  id : ℕ
  slot : ℕ
  next : Option ℕ
  deriving DecidableEq, Repr

/-- `rx_win` and `recv_wr_list` of a `pingpong_context`. -/
structure PingpongContext where
  idx : ℕ
  len : ℕ
  recvWrList : ℕ → RecvWr

/-- How a call of `ibv_post_srq_recv` ends: it posts all work requests, or it returns an error or
sets `bad_wr`, after it has posted `count` of them. -/
inductive PostResult where
  | success
  | error (err : {err : ℤ // err ≠ 0}) (count : ℕ)
  | badWr (count : ℕ)

/-- What a call leaves: the context, the work requests that it has posted and what it returns. -/
structure Outcome where
  ctx : PingpongContext
  posted : List RecvWr
  ret : ℤ

/-- The entry of `recv_wr_list` with an index. -/
def entryAt (index : ℤ) : Except Fault ℕ :=
  if 0 ≤ index ∧ index < maxSrqWr then .ok index.toNat else .error .outOfBounds

/-- `recv_wr_list[entry].next = next`. -/
def setNext (list : ℕ → RecvWr) (entry : ℕ) (next : Option ℕ) : ℕ → RecvWr :=
  Function.update list entry { list entry with next := next }

/-- The loop that writes `count` slots from `id` on into the work requests from `i` on. -/
def fillRecv (list : ℕ → RecvWr) : (count i id : ℕ) → Except Fault (ℕ → RecvWr)
  | 0, _, _ => .ok list
  | count + 1, i, id => do
      let entry ← entryAt i
      fillRecv (Function.update list entry { list entry with id := id, slot := id }) count (i + 1)
        ((id + 1) % maxSrqWr)

/-- The work requests that `ibv_post_srq_recv` finds from an entry on. -/
def chainFrom (list : ℕ → RecvWr) : (fuel entry : ℕ) → Except Fault (List RecvWr)
  | 0, _ => .error .endless
  | fuel + 1, entry =>
      if entry < maxSrqWr then
        match (list entry).next with
        | none => .ok [list entry]
        | some next => do
            let rest ← chainFrom list fuel next
            return list entry :: rest
      else .error .outOfBounds

/-- The end of `pp_post_recv_refill`: the call with the list that is cut at entry `last`, and
the lines behind it. -/
def postRefill (ctx : PingpongContext) (cut : ℕ → RecvWr) (last numRecv : ℕ)
    (chain : List RecvWr) : PostResult → Outcome
  | .success =>
      ⟨{ ctx with len := maxSrqWr, recvWrList := setNext cut last (some numRecv) }, chain, 0⟩
  | .error err count => ⟨{ ctx with len := maxSrqWr, recvWrList := cut }, chain.take count, err⟩
  | .badWr count => ⟨{ ctx with len := maxSrqWr, recvWrList := cut }, chain.take count, -1⟩

/-- `pp_post_recv_refill`. -/
def ppPostRecvRefill (ctx : PingpongContext) (post : PostResult) : Except Fault Outcome := do
  let numRecv := maxSrqWr - ctx.len
  let list ← fillRecv ctx.recvWrList numRecv 0 ((ctx.idx + ctx.len) % maxSrqWr)
  let last ← entryAt ((numRecv : ℤ) - 1)
  let cut := setNext list last none
  -- A chain with more entries than the list has would be a circle.
  let chain ← chainFrom cut (maxSrqWr + 1) 0
  return postRefill ctx cut last numRecv chain post

/-- `pp_process`. -/
def ppProcess (_idx _len : ℕ) : ℤ :=
  0

/-- `pp_on_recv`, for a window that is not empty. -/
def ppOnRecv (ctx : PingpongContext) (id : ℕ) (post : PostResult) : Except Fault Outcome :=
  if ctx.idx = id then
    let ctx := { ctx with idx := (ctx.idx + 1) % maxSrqWr, len := ctx.len - 1 }
    if ctx.len = 0 then
      if ppProcess ctx.idx maxSrqWr ≠ 0 then .ok ⟨ctx, [], ppProcess ctx.idx maxSrqWr⟩
      else ppPostRecvRefill ctx post
    else .ok ⟨ctx, [], 0⟩
  else .error .assertion

/-- `pp_on_flush`. -/
def ppOnFlush (ctx : PingpongContext) (post : PostResult) : Except Fault Outcome :=
  if ppProcess ctx.idx (maxSrqWr - ctx.len) ≠ 0 then
    .ok ⟨ctx, [], ppProcess ctx.idx (maxSrqWr - ctx.len)⟩
  else ppPostRecvRefill ctx post

/-- The context that `pp_init_ctx` and the loop over `recv_wr_list` in `main` leave. -/
structure PingpongContext.Fresh (ctx : PingpongContext) : Prop where
  idx : ctx.idx = 0
  len : ctx.len = 0
  links : ∀ i < maxSrqWr,
    (ctx.recvWrList i).next = if i = 1023 then none else some (i + 1)

section Lists

variable {list : ℕ → RecvWr} {count i id entry stop fuel : ℕ}

theorem entryAt_ok (inside : i < maxSrqWr) : entryAt i = .ok i := by
  rw [entryAt, if_pos ⟨Int.natCast_nonneg i, Int.ofNat_lt.mpr inside⟩, Int.toNat_natCast]

/-- The list after the loop. -/
def filled (list : ℕ → RecvWr) (count i id : ℕ) : ℕ → RecvWr := fun entry =>
  if i ≤ entry ∧ entry < i + count then
    { list entry with
      id := (id + (entry - i)) % maxSrqWr
      slot := (id + (entry - i)) % maxSrqWr }
  else list entry

theorem fillRecv_ok (inside : i + count ≤ maxSrqWr) (below : id < maxSrqWr) :
    fillRecv list count i id = .ok (filled list count i id) := by
  induction count generalizing list i id with
  | zero =>
      rw [fillRecv]
      congr 1
      funext entry
      rw [filled, if_neg (by omega)]
  | succ count ih =>
      rw [fillRecv, entryAt_ok (by omega)]
      simp only [bind, Except.bind]
      rw [ih (by omega) (Nat.mod_lt _ (by decide))]
      congr 1
      funext entry
      rw [filled, filled]
      rcases Nat.lt_trichotomy entry i with before | rfl | after
      · rw [if_neg (by omega), if_neg (by omega), Function.update_of_ne (by omega)]
      · rw [if_neg (by omega), if_pos (by omega), Function.update_self, Nat.sub_self,
          Nat.add_zero, Nat.mod_eq_of_lt below]
      · have slot : ((id + 1) % maxSrqWr + (entry - (i + 1))) % maxSrqWr =
            (id + (entry - i)) % maxSrqWr := by
          rw [Nat.mod_add_mod]
          congr 1
          omega
        rw [Function.update_of_ne (by omega), slot]
        split <;> split <;> first | rfl | omega

theorem filled_next : (filled list count i id entry).next = (list entry).next := by
  rw [filled]
  split <;> rfl

theorem setNext_self (next : Option ℕ) : (setNext list entry next entry).next = next := by
  rw [setNext, Function.update_self]

theorem setNext_of_ne {other : ℕ} (apart : other ≠ entry) (next : Option ℕ) :
    setNext list entry next other = list other :=
  Function.update_of_ne apart _ _

/-- Every entry links to the next one, or ends the list. -/
def Forward (list : ℕ → RecvWr) : Prop :=
  ∀ i < maxSrqWr, (list i).next = some (i + 1) ∨ (list i).next = none

/-- Every entry but the last one links to the next one. -/
def Linked (list : ℕ → RecvWr) : Prop :=
  ∀ i, i + 1 < maxSrqWr → (list i).next = some (i + 1)

/-- In a list that goes forward a chain ends at the first entry without a link. -/
theorem chainFrom_ok (forward : Forward list) (inside : stop < maxSrqWr)
    (ends : (list stop).next = none) (below : entry ≤ stop) (enough : stop < entry + fuel) :
    ∃ count, chainFrom list fuel entry = .ok ((List.range' entry count).map list) ∧
      ((∀ i, entry ≤ i → i < stop → (list i).next = some (i + 1)) →
        count = stop + 1 - entry) := by
  induction fuel generalizing entry with
  | zero => omega
  | succ fuel ih =>
      rw [chainFrom, if_pos (by omega)]
      by_cases last : (list entry).next = none
      · refine ⟨1, by rw [last]; rfl, fun linked => ?_⟩
        by_contra more
        have link := linked entry le_rfl (by omega)
        rw [last] at link
        cases link
      · have link := (forward entry (by omega)).resolve_right last
        have further : entry ≠ stop := fun same => last (same ▸ ends)
        obtain ⟨count, found, exact⟩ := @ih (entry + 1) (by omega) (by omega)
        refine ⟨count + 1, ?_, fun linked => ?_⟩
        · simp only [link, found, bind, Except.bind]
          rfl
        · have rest := exact fun i above before => linked i (by omega) before
          omega

end Lists

namespace PingpongContext

variable {ctx : PingpongContext} {post : PostResult}

/-- The list that a refill passes to `ibv_post_srq_recv`. -/
def cutList (ctx : PingpongContext) : ℕ → RecvWr :=
  setNext (filled ctx.recvWrList (maxSrqWr - ctx.len) 0 ((ctx.idx + ctx.len) % maxSrqWr))
    (maxSrqWr - ctx.len - 1) none

theorem cutList_next (ctx : PingpongContext) (entry : ℕ) : (ctx.cutList entry).next =
    if entry = maxSrqWr - ctx.len - 1 then none else (ctx.recvWrList entry).next := by
  rw [cutList]
  split
  next same => rw [same, setNext_self]
  next apart => rw [setNext_of_ne apart, filled_next]

theorem forward_cutList (forward : Forward ctx.recvWrList) : Forward ctx.cutList := by
  intro entry inside
  rw [cutList_next]
  split
  next => exact Or.inr rfl
  next => exact forward entry inside

/-- After a call that succeeds the list is linked again. -/
theorem relinked_next (room : ctx.len < maxSrqWr) (entry : ℕ) :
    (setNext ctx.cutList (maxSrqWr - ctx.len - 1) (some (maxSrqWr - ctx.len)) entry).next =
      if entry = maxSrqWr - ctx.len - 1 then some (entry + 1)
      else (ctx.recvWrList entry).next := by
  split
  next same =>
    rw [same, setNext_self]
    congr 1
    omega
  next apart => rw [setNext_of_ne apart, cutList_next, if_neg apart]

theorem forward_relinked (forward : Forward ctx.recvWrList) (room : ctx.len < maxSrqWr) :
    Forward (setNext ctx.cutList (maxSrqWr - ctx.len - 1) (some (maxSrqWr - ctx.len))) := by
  intro entry inside
  rw [relinked_next room]
  split
  next => exact Or.inl rfl
  next => exact forward entry inside

theorem cutList_slot {entry : ℕ} (few : entry < maxSrqWr - ctx.len) :
    (ctx.cutList entry).id = (ctx.idx + ctx.len + entry) % maxSrqWr ∧
      (ctx.cutList entry).slot = (ctx.idx + ctx.len + entry) % maxSrqWr := by
  have slot : ((ctx.idx + ctx.len) % maxSrqWr + (entry - 0)) % maxSrqWr =
      (ctx.idx + ctx.len + entry) % maxSrqWr := by
    rw [Nat.mod_add_mod, Nat.sub_zero]
  have written : filled ctx.recvWrList (maxSrqWr - ctx.len) 0
      ((ctx.idx + ctx.len) % maxSrqWr) entry =
        ⟨(ctx.idx + ctx.len + entry) % maxSrqWr, (ctx.idx + ctx.len + entry) % maxSrqWr,
          (ctx.recvWrList entry).next⟩ := by
    rw [filled, if_pos (by omega), slot]
  by_cases same : entry = maxSrqWr - ctx.len - 1
  · rw [cutList, setNext, ← same, Function.update_self, written]
    exact ⟨rfl, rfl⟩
  · rw [cutList, setNext_of_ne same, written]
    exact ⟨rfl, rfl⟩

/-- A refill of a window that is not full passes a list to `ibv_post_srq_recv` and stays inside
its arrays. If nothing has cut the list before, it has all slots outside the window. -/
theorem ppPostRecvRefill_ok (forward : Forward ctx.recvWrList) (room : ctx.len < maxSrqWr) :
    ∃ count, (Linked ctx.recvWrList → count = maxSrqWr - ctx.len) ∧
      ∀ post, ppPostRecvRefill ctx post = .ok (postRefill ctx ctx.cutList (maxSrqWr - ctx.len - 1)
        (maxSrqWr - ctx.len) ((List.range count).map ctx.cutList) post) := by
  have last : ((maxSrqWr - ctx.len : ℕ) : ℤ) - 1 = (maxSrqWr - ctx.len - 1 : ℕ) := by omega
  have ends : (ctx.cutList (maxSrqWr - ctx.len - 1)).next = none := by
    rw [cutList_next, if_pos rfl]
  obtain ⟨count, found, exact⟩ := chainFrom_ok (forward_cutList forward)
    (show maxSrqWr - ctx.len - 1 < maxSrqWr by omega) ends (Nat.zero_le _)
    (show _ < 0 + (maxSrqWr + 1) by omega)
  rw [← List.range_eq_range'] at found
  refine ⟨count, fun linked => ?_, fun post => ?_⟩
  · have whole := exact fun i _ before => by
      rw [cutList_next, if_neg (by omega)]
      exact linked i (by omega)
    omega
  · rw [ppPostRecvRefill, fillRecv_ok (by omega) (Nat.mod_lt _ (by decide))]
    simp only [bind, Except.bind, last]
    rw [entryAt_ok (by omega)]
    simp only [cutList] at found
    simp only [found]
    rfl

/-- The work requests that a refill of a linked list posts are those of the slots outside the
window, in order. -/
theorem map_cutList (ctx : PingpongContext) :
    ((List.range (maxSrqWr - ctx.len)).map ctx.cutList).map RecvWr.id =
        ring maxSrqWr ((ctx.idx + ctx.len) % maxSrqWr) (maxSrqWr - ctx.len) ∧
      ((List.range (maxSrqWr - ctx.len)).map ctx.cutList).map RecvWr.slot =
        ring maxSrqWr ((ctx.idx + ctx.len) % maxSrqWr) (maxSrqWr - ctx.len) := by
  rw [List.map_map, List.map_map, ring]
  refine ⟨?_, ?_⟩
  · apply List.map_congr_left
    intro entry few
    rw [Function.comp_apply, (cutList_slot (List.mem_range.mp few)).1, Nat.mod_add_mod]
  · apply List.map_congr_left
    intro entry few
    rw [Function.comp_apply, (cutList_slot (List.mem_range.mp few)).2, Nat.mod_add_mod]

/-- **A refill that succeeds.** It posts the slots outside the window, and the list is as linked as
before. -/
theorem ppPostRecvRefill_success (linked : Linked ctx.recvWrList) (forward : Forward ctx.recvWrList)
    (room : ctx.len < maxSrqWr) : ∃ list posted,
      ppPostRecvRefill ctx .success =
        .ok ⟨{ ctx with len := maxSrqWr, recvWrList := list }, posted, 0⟩ ∧
      Linked list ∧ Forward list ∧
      posted.map RecvWr.id =
        ring maxSrqWr ((ctx.idx + ctx.len) % maxSrqWr) (maxSrqWr - ctx.len) ∧
      posted.map RecvWr.slot =
        ring maxSrqWr ((ctx.idx + ctx.len) % maxSrqWr) (maxSrqWr - ctx.len) := by
  obtain ⟨count, exact, found⟩ := ppPostRecvRefill_ok forward room
  obtain rfl := exact linked
  refine ⟨_, _, found .success, fun entry inside => ?_, forward_relinked forward room,
    (map_cutList ctx).1, (map_cutList ctx).2⟩
  rw [relinked_next room]
  split
  next => rfl
  next => exact linked entry inside

/-- **A refill of a full window.** It writes the entry before the list. -/
theorem ppPostRecvRefill_full (full : ctx.len = maxSrqWr) (post : PostResult) :
    ppPostRecvRefill ctx post = .error .outOfBounds := by
  rw [ppPostRecvRefill, full]
  rfl

theorem ppOnFlush_eq (ctx : PingpongContext) (post : PostResult) :
    ppOnFlush ctx post = ppPostRecvRefill ctx post :=
  rfl

/-- A message in a window that has more slots only moves the window. -/
theorem ppOnRecv_more (more : 1 < ctx.len) : ppOnRecv ctx ctx.idx post =
    .ok ⟨{ ctx with idx := (ctx.idx + 1) % maxSrqWr, len := ctx.len - 1 }, [], 0⟩ := by
  have some : ctx.len - 1 ≠ 0 := by omega
  rw [ppOnRecv, if_pos rfl]
  exact if_neg some

/-- A message in the last slot of the window refills it. -/
theorem ppOnRecv_last (last : ctx.len = 1) : ppOnRecv ctx ctx.idx post =
    ppPostRecvRefill { ctx with idx := (ctx.idx + 1) % maxSrqWr, len := 0 } post := by
  rw [ppOnRecv, if_pos rfl, last]
  rfl

end PingpongContext

end Ympi.IbAllPutAll
