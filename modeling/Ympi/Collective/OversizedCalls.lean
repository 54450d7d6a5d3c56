import Ympi.Clients.ZalltoallBenchmark
import Ympi.Collective.PointerRanges

/-! # Calls that outgrow the first one

`YMPI_Write` asserts that a block lies in what the first call has registered of the send buffer.
In a call whose blocks need more than that, rank 0 never gets through its loop, and no rank leaves
the barrier. The RDMA all-to-all benchmark makes such calls, for its sizes grow.
-/

namespace Ympi.Collective.Pointers

open Foundation Messaging

section Oversized

variable {nprocs : ℕ} {calls : Calls nprocs} {call : ℕ}

/-- The blocks of the call need more bytes than the first call registers. -/
def Calls.Oversized (calls : Calls nprocs) (call : ℕ) : Prop :=
  calls.registeredBytes < calls.numprocs * calls.size call

/-- How often a rank has entered the barrier follows from how often it has entered a call. -/
def Counted (thread : Thread) (arrived : ℕ) : Prop :=
  match thread.stage with
  | .outside => arrived = thread.entered
  | .gathering => arrived + 1 = thread.entered
  | .writing _ => arrived + 1 = thread.entered
  | .barrier => arrived = thread.entered
  | .halted => True

/-- No rank has returned from the call, and rank 0 is not through with its writes. -/
structure Held (call : ℕ) (first : Fin calls.numprocs) (state : State calls) : Prop where
  counted : ∀ rank, Counted (state.threads rank) (state.arrived rank)
  entered : ∀ rank, (state.threads rank).entered ≤ call + 1
  outside : ∀ rank, (state.threads rank).stage = .outside → (state.threads rank).entered ≤ call
  arrived : state.arrived first ≤ call
  writing : ∀ dst, (state.threads first).stage = .writing dst →
    (state.threads first).entered = call + 1 → dst ≠ 0

variable {first : Fin calls.numprocs} {state state' : State calls}

/-- A rank moves on its own. -/
theorem Held.move (held : Held call first state) {rank : Fin calls.numprocs} {thread : Thread}
    {count : ℕ} (threads : state'.threads = Function.update state.threads rank thread)
    (arrived : state'.arrived = Function.update state.arrived rank count)
    (counted : Counted thread count) (entered : thread.entered ≤ call + 1)
    (outside : thread.stage = .outside → thread.entered ≤ call)
    (early : rank = first → count ≤ call)
    (writing : rank = first → ∀ dst, thread.stage = .writing dst → thread.entered = call + 1 →
      dst ≠ 0) : Held call first state' := by
  refine ⟨fun other => ?_, fun other => ?_, fun other => ?_, ?_, ?_⟩
  · rw [threads, arrived]
    by_cases same : other = rank
    · rwa [same, Function.update_self, Function.update_self]
    · rw [Function.update_of_ne same, Function.update_of_ne same]
      exact held.counted other
  · rw [threads]
    by_cases same : other = rank
    · rwa [same, Function.update_self]
    · rw [Function.update_of_ne same]
      exact held.entered other
  · rw [threads]
    by_cases same : other = rank
    · rwa [same, Function.update_self]
    · rw [Function.update_of_ne same]
      exact held.outside other
  · rw [arrived]
    by_cases same : first = rank
    · rw [same, Function.update_self]
      exact early same.symm
    · rw [Function.update_of_ne same]
      exact held.arrived
  · rw [threads]
    by_cases same : first = rank
    · rw [same, Function.update_self]
      exact writing same.symm
    · rw [Function.update_of_ne same]
      exact held.writing

/-- The assertion for the last block fails in a call that is too large. -/
theorem Calls.Oversized.not_inBounds (oversized : calls.Oversized call)
    {rank dst : Fin calls.numprocs} {statics : Statics} {keys : Keys} {peer : Fin nprocs}
    (last : dst.val + 1 = calls.numprocs) :
    ¬ (calls.writeCall rank call statics (calls.registered rank keys).1 dst peer).InBounds := by
  intro bounded
  have inside : sizeT (sizeT (dst * calls.size call) + calls.size call) ≤ calls.registeredBytes :=
    bounded
  have room := calls.sendRoom rank call
  have whole : dst * calls.size call + calls.size call = calls.numprocs * calls.size call :=
    (Nat.succ_mul _ _).symm.trans (congrArg (· * calls.size call) last)
  unfold sizeT at inside
  rw [Nat.mod_eq_of_lt (by omega), Nat.mod_eq_of_lt (by omega), whole] at inside
  exact absurd oversized (Nat.not_lt.mpr inside)

theorem Step.held (oversized : calls.Oversized call) (several : 2 ≤ calls.numprocs)
    (zero : first.val = 0) {event : Event calls} (step : Step state event state')
    (consistent : Consistent state.threads) (held : Held call first state) :
    Held call first state' := by
  have next : (first.val + 1) % calls.numprocs ≠ 0 := by
    rw [zero, Nat.mod_eq_of_lt several]
    exact one_ne_zero
  cases step with
  | @enterFirst rank statics keys stage fresh performed =>
      have counted := held.counted rank
      have few := held.outside rank stage
      rw [Counted, stage] at counted
      refine held.move rfl (Function.update_eq_self rank _).symm (congrArg (· + 1) counted)
        (Nat.succ_le_succ few) (by simp) (fun same => same ▸ held.arrived) ?_
      intro same dst writing
      cases writing
  | @enterAgain rank stage used repeated =>
      have counted := held.counted rank
      have few := held.outside rank stage
      rw [Counted, stage] at counted
      refine held.move rfl (Function.update_eq_self rank _).symm (congrArg (· + 1) counted)
        (Nat.succ_le_succ few) (by simp) (fun same => same ▸ held.arrived) ?_
      intro same dst writing _
      cases writing
      rwa [same]
  | @gather rank offers stage small offered =>
      have counted := held.counted rank
      rw [Counted, stage] at counted
      refine held.move rfl (Function.update_eq_self rank _).symm counted (held.entered rank)
        (by simp) (fun same => same ▸ held.arrived) ?_
      intro same dst writing _
      cases writing
      rwa [same]
  | @write rank dst made buffer peer stage other entered listed ranks bounded =>
      have counted := held.counted rank
      rw [Counted, stage] at counted
      refine held.move rfl (Function.update_eq_self rank _).symm counted (held.entered rank)
        (by simp) (fun same => same ▸ held.arrived) ?_
      intro same next writing latest wrapped
      cases writing
      -- the loop wraps around only after the block for the last rank
      have same : made = call := Nat.succ.inj (entered.symm.trans latest)
      subst same
      have last : dst.val + 1 = calls.numprocs := by
        rcases Nat.lt_or_ge (dst.val + 1) calls.numprocs with less | least
        · rw [Nat.mod_eq_of_lt less] at wrapped
          cases wrapped
        · exact le_antisymm dst.isLt least
      have used := (consistent.valid rank).inside (by simp [stage]) (by simp [stage])
      obtain ⟨-, keys, lastSend, -⟩ := (consistent.valid rank).started used
      cases Option.some.inj (listed.symm.trans lastSend)
      exact oversized.not_inBounds last bounded
  | @finish rank stage =>
      have counted := held.counted rank
      rw [Counted, stage] at counted
      refine held.move rfl rfl counted (held.entered rank) (by simp) ?_ ?_
      · rintro rfl
        have most := held.entered rank
        rw [counted]
        rcases Nat.lt_or_ge call (state.threads rank).entered with late | early
        · exact absurd zero (held.writing rank stage (le_antisymm most late))
        · exact early
      · intro same dst writing
        cases writing
  | @leave rank stage together =>
      have counted := held.counted rank
      rw [Counted, stage] at counted
      refine held.move rfl (Function.update_eq_self rank _).symm counted (held.entered rank) ?_
        (fun same => same ▸ held.arrived) ?_
      · intro _
        change (state.threads rank).entered ≤ call
        rw [← counted]
        exact (together first).trans held.arrived
      · intro same dst writing
        cases writing
  | @halt rank =>
      refine held.move rfl (Function.update_eq_self rank _).symm trivial (held.entered rank)
        (by simp) (fun same => same ▸ held.arrived) ?_
      intro same dst writing
      cases writing

/-- No rank returns from a call that is too large. -/
theorem Calls.Oversized.held (oversized : calls.Oversized call) (several : 2 ≤ calls.numprocs)
    {history : List (Event calls)} (reached : (system calls).Reaches history state) :
    Held call (⟨0, Nat.zero_lt_of_lt several⟩ : Fin calls.numprocs) state := by
  refine reached.induction (motive := fun _ state => Held call
    (⟨0, Nat.zero_lt_of_lt several⟩ : Fin calls.numprocs) state) ?_ ?_
  · intro start initial
    constructor
    · intro rank
      rw [initial.threads, initial.arrived]
      rfl
    · intro rank
      rw [initial.threads]
      exact Nat.zero_le _
    · intro rank _
      rw [initial.threads]
      exact Nat.zero_le _
    · rw [initial.arrived]
      exact Nat.zero_le _
    · intro dst writing
      rw [initial.threads] at writing
      cases writing
  · intro labels before label after earlier held step
    exact Step.held oversized several rfl step (reaches_consistent earlier) held

end Oversized

end Ympi.Collective.Pointers

namespace Ympi.Collective.RdmaAlltoall

open Foundation Messaging Pointers
open Clients.Zalltoall (Options)

/-- The sizes of the calls, one for each iteration. -/
def callSizes {largest : ℕ} : Options → List (Power largest) → List ℕ
  | _, [] => []
  | options, size :: rest =>
      let current := options.forSize size.value
      List.replicate (current.iterations + current.skip) size.value ++ callSizes current rest

theorem exists_callSizes_eq_cons {largest : ℕ} (options : Options) (size : Power largest)
    (rest : List (Power largest)) :
    ∃ later, callSizes options (size :: rest) = size.value :: later := by
  obtain ⟨iterations, positive⟩ :=
    Nat.exists_eq_add_one.mpr (options.forSize size.value).iterations_pos
  rw [callSizes, positive, Nat.add_right_comm, List.replicate_succ]
  exact ⟨_, rfl⟩

theorem le_of_mem_callSizes {largest size : ℕ} {options : Options} {sizes : List (Power largest)}
    (member : size ∈ callSizes options sizes) : size ≤ largest := by
  induction sizes generalizing options with
  | nil => cases member
  | cons power rest ih =>
      rcases List.mem_append.mp member with now | later
      · rw [List.eq_of_mem_replicate now]
        exact power.le
      · exact ih later

theorem mem_callSizes {largest : ℕ} {options : Options} {sizes : List (Power largest)}
    {power : Power largest} (member : power ∈ sizes) : power.value ∈ callSizes options sizes := by
  induction sizes generalizing options with
  | nil => cases member
  | cons size rest ih =>
      rcases List.mem_cons.mp member with rfl | later
      · obtain ⟨later, begins⟩ := exists_callSizes_eq_cons options power rest
        rw [begins]
        exact List.mem_cons_self
      · exact List.mem_append_right _ (ih later)

/-- The options, and the buffers that two or more processes allocate. -/
structure Setting (numprocs : ℕ) where
  options : Options
  sendbuf : Fin numprocs → ℕ
  recvbuf : Fin numprocs → ℕ
  sendRoom : ∀ rank, sendbuf rank + numprocs * options.maxSize numprocs < 2 ^ 64
  recvRoom : ∀ rank, recvbuf rank + numprocs * options.maxSize numprocs < 2 ^ 64
  two_le : 2 ≤ numprocs

namespace Setting

variable {numprocs : ℕ} (setting : Setting numprocs)

/-- The sizes of the calls of `main`. -/
def sizes : List ℕ :=
  callSizes setting.options
    (Power.doublings (setting.options.maxSize numprocs) (setting.options.maxSize numprocs)
      setting.options.minMessageSize setting.options.minMessageSize_pow)

theorem size_le (call : ℕ) : setting.sizes.getD call 0 ≤ setting.options.maxSize numprocs := by
  rw [List.getD_eq_getElem?_getD]
  cases found : setting.sizes[call]? with
  | none => exact Nat.zero_le _
  | some size => exact le_of_mem_callSizes (List.mem_of_getElem? found)

theorem room_of_le {start : ℕ} (room : start + numprocs * setting.options.maxSize numprocs < 2 ^ 64)
    (call : ℕ) : start + numprocs * setting.sizes.getD call 0 < 2 ^ 64 := by
  have least := Nat.mul_le_mul_left numprocs (setting.size_le call)
  omega

/-- The calls of `YMPI_Alltoall_write_ptr` in `main`. -/
def calls : Calls numprocs where
  comm := 0
  numprocs := numprocs
  worldRank rank := rank
  sendbuf := setting.sendbuf
  recvbuf := setting.recvbuf
  size call := setting.sizes.getD call 0
  sendRoom rank := setting.room_of_le (setting.sendRoom rank)
  recvRoom rank := setting.room_of_le (setting.recvRoom rank)

/-- The first call is for the least size. -/
theorem size_zero {size : ℕ} (member : size ∈ setting.sizes) :
    setting.calls.size 0 = setting.options.minMessageSize := by
  obtain ⟨exponent, power⟩ := setting.options.minMessageSize_pow
  have positive : 0 < setting.options.minMessageSize := power ▸ Nat.two_pow_pos exponent
  by_cases some : setting.options.minMessageSize ≤ setting.options.maxSize numprocs
  · obtain ⟨rest, listed⟩ := Power.exists_doublings_eq_cons setting.options.minMessageSize_pow
      (positive.trans_le some) some
    obtain ⟨later, begins⟩ := exists_callSizes_eq_cons setting.options
      (⟨_, some, setting.options.minMessageSize_pow⟩ : Power (setting.options.maxSize numprocs)) rest
    rw [← listed] at begins
    change setting.sizes.getD 0 0 = _
    rw [sizes, begins]
    rfl
  · rw [sizes, Power.doublings_eq_nil (Nat.not_le.mp some)] at member
    cases member

end Setting

/-- The calls of a size that is larger than the number of ranks times the first one are too
large. -/
theorem Setting.oversized {numprocs : ℕ} (setting : Setting numprocs) {call size : ℕ}
    (listed : setting.sizes[call]? = some size)
    (large : numprocs * setting.options.minMessageSize < size) : setting.calls.Oversized call := by
  have same : setting.calls.size call = size := by
    change setting.sizes.getD call 0 = size
    rw [List.getD_eq_getElem?_getD, listed, Option.getD_some]
  have registered : setting.calls.registeredBytes ≤ setting.calls.size 0 * numprocs * numprocs :=
    (Nat.mod_le _ _).trans (Nat.mul_le_mul_right _ (Nat.mod_le _ _))
  rw [setting.size_zero (List.mem_of_getElem? listed), Nat.mul_comm,
    Nat.mul_comm _ numprocs] at registered
  rw [Calls.Oversized, same]
  exact registered.trans_lt (Nat.mul_lt_mul_of_pos_left large (Nat.zero_lt_of_lt setting.two_le))

/-- **The RDMA all-to-all benchmark.** If it comes to a size that is larger than the number of
ranks times the first one, it never ends: no rank ever returns from the first call of such a size,
nor enters a later one. -/
theorem rdma_alltoall_never_ends {numprocs : ℕ} (setting : Setting numprocs) {call size : ℕ}
    (listed : setting.sizes[call]? = some size)
    (large : numprocs * setting.options.minMessageSize < size)
    {history : List (Pointers.Event setting.calls)} {state : Pointers.State setting.calls}
    (reached : (Pointers.system setting.calls).Reaches history state)
    (rank : Fin setting.calls.numprocs) :
    call < setting.sizes.length ∧ (state.threads rank).entered ≤ call + 1 ∧
      ((state.threads rank).stage = .outside → (state.threads rank).entered ≤ call) := by
  have held := (setting.oversized listed large).held setting.two_le reached
  exact ⟨(List.getElem?_eq_some_iff.mp listed).1, held.entered rank, held.outside rank⟩

/-- Two processes with the default options. -/
def pair : Setting 2 where
  options := .default
  sendbuf _ := 4096
  recvbuf _ := 2 ^ 22
  sendRoom _ := by decide
  recvRoom _ := by decide
  two_le := Nat.one_lt_two

theorem four_le : 4 ≤ Options.default.maxSize 2 := by
  decide

theorem four_eq_pow : ∃ exponent, 4 = 2 ^ exponent :=
  ⟨2, rfl⟩

/-- The benchmark comes to messages of 4 bytes, and never gets past the first call with them. -/
theorem rdma_alltoall_never_ends_pair : ∃ call, pair.sizes[call]? = some 4 ∧
    ∀ history state, (Pointers.system pair.calls).Reaches history state →
      ∀ rank, (state.threads rank).entered ≤ call + 1 ∧
        ((state.threads rank).stage = .outside → (state.threads rank).entered ≤ call) := by
  let four : Power (pair.options.maxSize 2) := ⟨4, four_le, four_eq_pow⟩
  have member : four.value ∈ pair.sizes :=
    mem_callSizes ((Power.mem_doublings (by decide) four).mpr (by decide))
  obtain ⟨call, listed⟩ := List.mem_iff_getElem?.mp member
  refine ⟨call, listed, ?_⟩
  intro history state reached rank
  exact (rdma_alltoall_never_ends pair listed (by decide) reached rank).2

end Ympi.Collective.RdmaAlltoall
