import Ympi.Setup.QpnLookup

/-! # The numbers of queue pairs on the Sunway

Four processes share an adapter. Each numbers its queue pairs in a block of its own, from the
middle of the block on, so that a number determines both the process and the peer. The
numbers of one process do not collide in the table of the other build, and both lookups
agree on them.
-/

namespace Ympi.Setup

open Foundation Messaging

/-- An `int`, which holds the values from `INT_MIN` to `INT_MAX`; anything else overflows. -/
def int (value : Int) : Option Int :=
  if -2147483648 ≤ value ∧ value ≤ 2147483647 then some value else none

theorem int_eq_some {value : Int} (inside : -2147483648 ≤ value ∧ value ≤ 2147483647) :
    int value = some value :=
  if_pos inside

/-- `offset_to_qpn`, evaluated operator by operator in `int`. -/
def offsetToQpnInt (cgid offset : Int) : Option Int := do
  let kilobytes ← int (8 * 1024)
  let bytes ← int (kilobytes * 1024)
  let numbers ← int (bytes - 1024)
  let qpnBlockSize := numbers / 4
  let halfQpnBlockSize := numbers / 8
  let skipped ← int (cgid * qpnBlockSize)
  let start ← int (1024 + skipped)
  let middle ← int (start + halfQpnBlockSize)
  int (middle + offset)

/-- `qpn_block_size`: the numbers of a core group. -/
def qpnBlockSize : ℕ := ((8 * 1024 * 1024) - 1024) / 4

/-- `half_qpn_block_size` -/
def halfQpnBlockSize : ℕ := ((8 * 1024 * 1024) - 1024) / 8

@[simp] theorem qpnBlockSize_cast : (qpnBlockSize : Int) = 2096896 := by decide

@[simp] theorem halfQpnBlockSize_cast : (halfQpnBlockSize : Int) = 1048448 := by decide

variable {cgid cgid' offset offset' : Int} {nprocs : ℕ}

theorem offsetToQpn_eq (cgid offset : Int) :
    offsetToQpn cgid offset = 1024 + cgid * qpnBlockSize + halfQpnBlockSize + offset := rfl

/-- The four core groups of an adapter. -/
def CoreGroup (cgid : Int) : Prop :=
  0 ≤ cgid ∧ cgid < 4

/-- An offset inside half a block. -/
def HalfBlock (offset : Int) : Prop :=
  0 ≤ offset ∧ offset < halfQpnBlockSize

/-- No operator overflows. -/
theorem offsetToQpnInt_eq (group : CoreGroup cgid) (inside : HalfBlock offset) :
    offsetToQpnInt cgid offset = some (offsetToQpn cgid offset) := by
  obtain ⟨low, high⟩ := group
  obtain ⟨low', high'⟩ := inside
  rw [halfQpnBlockSize_cast] at high'
  have skipped : int (cgid * 2096896) = some (cgid * 2096896) := int_eq_some (by omega)
  have start : int (1024 + cgid * 2096896) = some (1024 + cgid * 2096896) :=
    int_eq_some (by omega)
  have middle : int (1024 + cgid * 2096896 + 1048448) = some (1024 + cgid * 2096896 + 1048448) :=
    int_eq_some (by omega)
  have number : int (1024 + cgid * 2096896 + 1048448 + offset) =
      some (1024 + cgid * 2096896 + 1048448 + offset) :=
    int_eq_some (by omega)
  change ((int (cgid * 2096896)).bind fun skipped => (int (1024 + skipped)).bind fun start =>
    (int (start + 1048448)).bind fun middle => int (middle + offset)) = _
  rw [skipped, Option.bind_some, start, Option.bind_some, middle, Option.bind_some, number]
  rfl

/-- The number of an offset in half a block lies in the upper half of the block of its core
group. -/
theorem offsetToQpn_upper (cgid : Int) (inside : HalfBlock offset) :
    1024 + cgid * qpnBlockSize + halfQpnBlockSize ≤ offsetToQpn cgid offset ∧
      offsetToQpn cgid offset < 1024 + (cgid + 1) * qpnBlockSize := by
  obtain ⟨low, high⟩ := inside
  rw [offsetToQpn_eq, qpnBlockSize_cast]
  rw [halfQpnBlockSize_cast] at high ⊢
  omega

/-- The four blocks lie between 1024 and 8 * 1024 * 1024. -/
theorem offsetToQpn_mem (group : CoreGroup cgid) (inside : HalfBlock offset) :
    1024 ≤ offsetToQpn cgid offset ∧ offsetToQpn cgid offset < 8 * 1024 * 1024 := by
  have upper := offsetToQpn_upper cgid inside
  obtain ⟨low, high⟩ := group
  rw [qpnBlockSize_cast, halfQpnBlockSize_cast] at upper
  omega

theorem qpnToOffset_offsetToQpn (cgid offset : Int) :
    qpnToOffset cgid (offsetToQpn cgid offset) = offset := by
  rw [qpnToOffset, offsetToQpn]
  omega

/-- Numbers of different core groups or offsets differ. -/
theorem offsetToQpn_injective (inside : HalfBlock offset) (inside' : HalfBlock offset')
    (same : offsetToQpn cgid offset = offsetToQpn cgid' offset') : cgid = cgid' ∧ offset = offset' := by
  obtain ⟨low, high⟩ := inside
  obtain ⟨low', high'⟩ := inside'
  rw [offsetToQpn_eq, offsetToQpn_eq, qpnBlockSize_cast] at same
  rw [halfQpnBlockSize_cast] at high high' same
  omega

namespace Process

variable {process : Process nprocs} {peer : Fin nprocs}

/-- The queue pairs have the numbers that `ibv_create_qp_diy` is called with. -/
def DiyNumbered (process : Process nprocs) (cgid : Int) : Prop :=
  ∀ peer number, process.qpNum peer = some number →
    (number.toNat : Int) = offsetToQpn cgid peer.val

theorem halfBlock (small : nprocs ≤ halfQpnBlockSize) (peer : Fin nprocs) :
    HalfBlock (peer.val : Int) :=
  ⟨Int.natCast_nonneg _, by have := peer.isLt; omega⟩

/-- Half a block is shorter than the table, so numbers of one core group are not congruent. -/
theorem DiyNumbered.not_collides (numbered : process.DiyNumbered cgid)
    (small : nprocs ≤ halfQpnBlockSize) : ¬ process.Collides := by
  rintro ⟨peer, other, number, number', apart, ⟨-, assigned, -⟩, ⟨-, assigned', -⟩, same⟩
  have first := numbered peer number assigned
  have second := numbered other number' assigned'
  obtain ⟨-, high⟩ := halfBlock small peer
  obtain ⟨-, high'⟩ := halfBlock small other
  have slots : qpnHashSize = 1048576 := by decide
  rw [offsetToQpn_eq] at first second
  rw [halfQpnBlockSize_cast] at high high'
  rw [slots] at same
  refine apart (Fin.ext ?_)
  omega

variable {qpRank : ℕ → Int} {qpList : Fin nprocs → Option QueuePair}

/-- The lookup by arithmetic finds the peer of a queue pair. -/
theorem DiyNumbered.lookup (numbered : process.DiyNumbered cgid)
    (done : process.createQps = .ok (qpRank, qpList)) {qp : QueuePair} (held : qpList peer = some qp) :
    qpnRank (.sw cgid) qpRank qp.qpNum.toNat = .ok (peer.val : Int) := by
  have number := numbered peer _ (createQps_number done held).2
  rw [qpnRank, number, qpnToOffset_offsetToQpn]

/-- The messaging layer may rely on the arithmetic in a context created on the Sunway. -/
theorem DiyNumbered.contextCreate_qpTable (numbered : process.DiyNumbered cgid)
    (done : process.contextCreate = .ok (qpList, qpRank)) :
    ∃ table : QpTable nprocs, table.arch = .sw cgid ∧ table.qpRank = qpRank ∧
      ∀ peer, table.qpList peer = (qpList peer).map fun qp => qp.qpNum.toNat :=
  Process.contextCreate_qpTable (.sw cgid) done fun _ looped _ _ held =>
    numbered.lookup looped held

end Process

/-- **Numbers on the Sunway.** With at most half a block of processes, the computation of a
number does not overflow, its result lies in the upper half of the quarter of the numbers that
belongs to the core group, `qpn_to_offset` leads back, and no two pairs of a core group and an
offset share a number. The creation loop does not stop at its assertion for these numbers, and
the lookup by arithmetic and the one in the table find the same peer for every queue pair. -/
theorem sunway_numbers (nprocs : ℕ) (small : nprocs ≤ ((8 * 1024 * 1024) - 1024) / 8) :
    (∀ cgid offset, CoreGroup cgid → 0 ≤ offset → offset < (nprocs : Int) →
      offsetToQpnInt cgid offset = some (offsetToQpn cgid offset) ∧
      (1024 ≤ offsetToQpn cgid offset ∧ offsetToQpn cgid offset < 8 * 1024 * 1024) ∧
      (1024 + cgid * qpnBlockSize + halfQpnBlockSize ≤ offsetToQpn cgid offset ∧
        offsetToQpn cgid offset < 1024 + (cgid + 1) * qpnBlockSize) ∧
      qpnToOffset cgid (offsetToQpn cgid offset) = offset ∧
      ∀ cgid' offset', CoreGroup cgid' → 0 ≤ offset' → offset' < (nprocs : Int) →
        offsetToQpn cgid offset = offsetToQpn cgid' offset' → cgid = cgid' ∧ offset = offset') ∧
    ∀ (process : Process nprocs) (cgid : Int), CoreGroup cgid → process.DiyNumbered cgid →
      process.createQps ≠ .error .assertion ∧
        ∀ qpRank qpList, process.createQps = .ok (qpRank, qpList) →
          ∀ peer qp, qpList peer = some qp →
            qpnRank (.sw cgid) qpRank qp.qpNum.toNat = .ok (peer.val : Int) ∧
              qpnRank .x86_64 qpRank qp.qpNum.toNat = .ok (peer.val : Int) := by
  have half := halfQpnBlockSize_cast
  refine ⟨?_, ?_⟩
  · intro cgid offset group low high
    have inside : HalfBlock offset := ⟨low, by omega⟩
    refine ⟨offsetToQpnInt_eq group inside, offsetToQpn_mem group inside,
      offsetToQpn_upper cgid inside, qpnToOffset_offsetToQpn cgid offset, ?_⟩
    intro cgid' offset' _ low' high' same
    exact offsetToQpn_injective inside ⟨low', by omega⟩ same
  · intro process cgid _ numbered
    refine ⟨fun stopped => ?_, fun qpRank qpList done peer qp held => ⟨?_, ?_⟩⟩
    · exact numbered.not_collides small (Process.createQps_assertion_iff.mp stopped)
    · exact numbered.lookup done held
    · exact Process.createQps_lookup done held

/-- The second of two processes on the last core group. -/
theorem sunway_numbers_two : offsetToQpnInt 3 1 = some 7340161 ∧
    (Process.ofNumbers 7340160 7340161 (by decide)).createQps ≠ .error .assertion := by
  have numbered : (Process.ofNumbers 7340160 7340161 (by decide)).DiyNumbered 3 := by
    intro peer number assigned
    cases peer using Fin.cases with
    | zero =>
        cases assigned
        decide
    | succ peer =>
        cases assigned
        have only : peer = 0 := Subsingleton.elim _ _
        subst only
        decide
  have both := sunway_numbers 2 (by decide)
  exact ⟨(both.1 3 1 ⟨by decide, by decide⟩ (by decide) (by decide)).1,
    (both.2 _ 3 ⟨by decide, by decide⟩ numbered).1⟩

end Ympi.Setup
