import Mathlib.Algebra.Order.BigOperators.Group.List
import Mathlib.Algebra.Order.Ring.Nat

/-! # The table of numbers with the factors 2, 3 and 5

Board sizes and numbers of boards are rounded down to numbers whose factors are the
sizes of the exchange groups. The table lists them in order with their exponents.
-/

namespace Ympi.Shuffle

/-- The factors in `valid_factor`. -/
def validFactor : Fin 3 → ℕ
  | 0 => 2
  | 1 => 3
  | 2 => 5

/-- Exponents of the factors. -/
structure Factor where
  n0 : ℕ
  n1 : ℕ
  n2 : ℕ
  deriving DecidableEq, Repr

/-- A number with its exponents. -/
structure Factorized where
  number : ℕ
  factor : Factor
  deriving DecidableEq, Repr

namespace Factor

/-- The exponent of a factor. -/
def n (factor : Factor) : Fin 3 → ℕ
  | 0 => factor.n0
  | 1 => factor.n1
  | 2 => factor.n2

/-- The factors with their multiplicities. -/
def radices (factor : Factor) : List ℕ :=
  List.replicate factor.n0 2 ++ List.replicate factor.n1 3 ++ List.replicate factor.n2 5

/-- The number with these exponents. -/
def product (factor : Factor) : ℕ :=
  2 ^ factor.n0 * 3 ^ factor.n1 * 5 ^ factor.n2

theorem prod_radices (factor : Factor) : factor.radices.prod = factor.product := by
  simp [radices, product, Nat.mul_assoc]

/-- Every group has two, three or five members. -/
theorem mem_radices {factor : Factor} {size : ℕ} (member : size ∈ factor.radices) :
    2 ≤ size ∧ size ≤ 5 := by
  simp only [radices, List.mem_append, List.mem_replicate] at member
  omega

/-- The product of the first factors. -/
def base (factor : Factor) (index : ℕ) : ℕ :=
  (factor.radices.take index).prod

theorem base_succ {factor : Factor} {index size : ℕ}
    (listed : factor.radices[index]? = some size) :
    factor.base (index + 1) = factor.base index * size := by
  rw [base, List.take_add_one, listed, List.prod_append]
  simp [base]

theorem base_length (factor : Factor) : factor.base factor.radices.length = factor.product := by
  rw [base, List.take_length, prod_radices]

/-- The factors up to one of them divide the product. -/
theorem base_mul_size_mul {factor : Factor} {index size : ℕ}
    (listed : factor.radices[index]? = some size) :
    factor.base index * size * (factor.radices.drop (index + 1)).prod = factor.product := by
  rw [← base_succ listed, base, ← List.prod_append, List.take_append_drop, prod_radices]

theorem product_pos (factor : Factor) : 0 < factor.product :=
  Nat.pos_of_ne_zero (by simp [product])

theorem base_pos (factor : Factor) (index : ℕ) : 0 < factor.base index := by
  have whole := factor.product_pos
  rw [← prod_radices, ← List.take_append_drop index factor.radices, List.prod_append] at whole
  exact Nat.pos_of_mul_pos_right whole

/-- Each factor at least doubles the product. -/
theorem two_pow_le (factor : Factor) : 2 ^ factor.radices.length ≤ factor.product := by
  rw [← prod_radices]
  apply List.pow_card_le_prod
  intro size member
  exact (mem_radices member).1

end Factor

/-- The exponents stored with a number are its exponents. -/
def Factorized.Exact (factorized : Factorized) : Prop :=
  factorized.number = factorized.factor.product

instance (factorized : Factorized) : Decidable factorized.Exact :=
  inferInstanceAs (Decidable (_ = _))

/-- The table `factorized`. -/
def factorized : List Factorized :=
  [⟨1, 0, 0, 0⟩, ⟨2, 1, 0, 0⟩, ⟨3, 0, 1, 0⟩, ⟨4, 2, 0, 0⟩, ⟨5, 0, 0, 1⟩, ⟨6, 1, 1, 0⟩,
    ⟨8, 3, 0, 0⟩, ⟨9, 0, 2, 0⟩, ⟨10, 1, 0, 1⟩, ⟨12, 2, 1, 0⟩, ⟨15, 0, 1, 1⟩, ⟨16, 4, 0, 0⟩,
    ⟨18, 1, 2, 0⟩, ⟨20, 2, 0, 1⟩, ⟨24, 3, 1, 0⟩, ⟨25, 0, 0, 2⟩, ⟨27, 0, 3, 0⟩, ⟨30, 1, 1, 1⟩,
    ⟨32, 5, 0, 0⟩, ⟨36, 2, 2, 0⟩, ⟨40, 3, 0, 1⟩, ⟨45, 0, 2, 1⟩, ⟨48, 4, 1, 0⟩, ⟨50, 1, 0, 2⟩,
    ⟨54, 1, 3, 0⟩, ⟨60, 2, 1, 1⟩, ⟨64, 6, 0, 0⟩, ⟨72, 3, 2, 0⟩, ⟨75, 0, 1, 2⟩, ⟨80, 4, 0, 1⟩,
    ⟨81, 0, 4, 0⟩, ⟨90, 1, 2, 1⟩, ⟨96, 5, 1, 0⟩, ⟨100, 2, 0, 2⟩, ⟨108, 2, 3, 0⟩, ⟨120, 3, 1, 1⟩,
    ⟨125, 0, 0, 3⟩, ⟨128, 7, 0, 0⟩, ⟨135, 0, 3, 1⟩, ⟨144, 4, 2, 0⟩, ⟨150, 1, 1, 2⟩,
    ⟨160, 5, 0, 1⟩, ⟨162, 1, 4, 0⟩, ⟨180, 2, 2, 1⟩, ⟨192, 6, 1, 0⟩, ⟨200, 3, 0, 2⟩,
    ⟨216, 3, 3, 0⟩, ⟨225, 0, 2, 2⟩, ⟨240, 4, 1, 1⟩, ⟨243, 0, 5, 0⟩, ⟨250, 1, 0, 3⟩,
    ⟨256, 8, 0, 0⟩, ⟨270, 1, 3, 1⟩, ⟨288, 5, 2, 0⟩, ⟨300, 2, 1, 2⟩, ⟨320, 6, 0, 1⟩,
    ⟨324, 2, 4, 0⟩, ⟨360, 3, 2, 1⟩, ⟨375, 0, 1, 3⟩, ⟨384, 7, 1, 0⟩, ⟨400, 4, 0, 2⟩,
    ⟨405, 0, 4, 1⟩, ⟨432, 4, 3, 0⟩, ⟨450, 1, 2, 2⟩, ⟨480, 5, 1, 1⟩, ⟨486, 1, 5, 0⟩,
    ⟨500, 2, 0, 3⟩, ⟨512, 9, 0, 0⟩, ⟨540, 2, 3, 1⟩, ⟨576, 6, 2, 0⟩, ⟨600, 3, 1, 2⟩,
    ⟨625, 0, 0, 4⟩, ⟨640, 7, 0, 1⟩, ⟨648, 3, 4, 0⟩, ⟨675, 0, 3, 2⟩, ⟨720, 4, 2, 1⟩,
    ⟨729, 0, 6, 0⟩, ⟨750, 1, 1, 3⟩, ⟨768, 8, 1, 0⟩, ⟨800, 5, 0, 2⟩, ⟨810, 1, 4, 1⟩,
    ⟨864, 5, 3, 0⟩, ⟨900, 2, 2, 2⟩, ⟨960, 6, 1, 1⟩, ⟨972, 2, 5, 0⟩, ⟨1000, 3, 0, 3⟩,
    ⟨1024, 10, 0, 0⟩, ⟨1080, 3, 3, 1⟩, ⟨1125, 0, 2, 3⟩, ⟨1152, 7, 2, 0⟩, ⟨1200, 4, 1, 2⟩,
    ⟨1215, 0, 5, 1⟩, ⟨1250, 1, 0, 4⟩, ⟨1280, 8, 0, 1⟩, ⟨1296, 4, 4, 0⟩, ⟨1350, 1, 3, 2⟩,
    ⟨1440, 5, 2, 1⟩, ⟨1458, 1, 6, 0⟩, ⟨1500, 2, 1, 3⟩, ⟨1536, 9, 1, 0⟩, ⟨1600, 6, 0, 2⟩,
    ⟨1620, 2, 4, 1⟩, ⟨1728, 6, 3, 0⟩, ⟨1800, 3, 2, 2⟩, ⟨1875, 0, 1, 4⟩, ⟨1920, 7, 1, 1⟩,
    ⟨1944, 3, 5, 0⟩, ⟨2000, 4, 0, 3⟩, ⟨2025, 0, 4, 2⟩, ⟨2048, 11, 0, 0⟩, ⟨2160, 4, 3, 1⟩,
    ⟨2187, 0, 7, 0⟩, ⟨2250, 1, 2, 3⟩, ⟨2304, 8, 2, 0⟩, ⟨2400, 5, 1, 2⟩, ⟨2430, 1, 5, 1⟩,
    ⟨2500, 2, 0, 4⟩, ⟨2560, 9, 0, 1⟩, ⟨2592, 5, 4, 0⟩, ⟨2700, 2, 3, 2⟩, ⟨2880, 6, 2, 1⟩,
    ⟨2916, 2, 6, 0⟩, ⟨3000, 3, 1, 3⟩, ⟨3072, 10, 1, 0⟩, ⟨3125, 0, 0, 5⟩, ⟨3200, 7, 0, 2⟩,
    ⟨3240, 3, 4, 1⟩, ⟨3375, 0, 3, 3⟩, ⟨3456, 7, 3, 0⟩, ⟨3600, 4, 2, 2⟩, ⟨3645, 0, 6, 1⟩,
    ⟨3750, 1, 1, 4⟩, ⟨3840, 8, 1, 1⟩, ⟨3888, 4, 5, 0⟩, ⟨4000, 5, 0, 3⟩, ⟨4050, 1, 4, 2⟩,
    ⟨4096, 12, 0, 0⟩, ⟨4320, 5, 3, 1⟩, ⟨4374, 1, 7, 0⟩, ⟨4500, 2, 2, 3⟩, ⟨4608, 9, 2, 0⟩,
    ⟨4800, 6, 1, 2⟩, ⟨4860, 2, 5, 1⟩, ⟨5000, 3, 0, 4⟩, ⟨5120, 10, 0, 1⟩, ⟨5184, 6, 4, 0⟩,
    ⟨5400, 3, 3, 2⟩, ⟨5625, 0, 2, 4⟩, ⟨5760, 7, 2, 1⟩, ⟨5832, 3, 6, 0⟩, ⟨6000, 4, 1, 3⟩,
    ⟨6075, 0, 5, 2⟩, ⟨6144, 11, 1, 0⟩, ⟨6250, 1, 0, 5⟩, ⟨6400, 8, 0, 2⟩, ⟨6480, 4, 4, 1⟩,
    ⟨6561, 0, 8, 0⟩, ⟨6750, 1, 3, 3⟩, ⟨6912, 8, 3, 0⟩, ⟨7200, 5, 2, 2⟩, ⟨7290, 1, 6, 1⟩,
    ⟨7500, 2, 1, 4⟩, ⟨7680, 9, 1, 1⟩, ⟨7776, 5, 5, 0⟩, ⟨8000, 6, 0, 3⟩, ⟨8100, 2, 4, 2⟩,
    ⟨8192, 13, 0, 0⟩, ⟨8640, 6, 3, 1⟩, ⟨8748, 2, 7, 0⟩, ⟨9000, 3, 2, 3⟩, ⟨9216, 10, 2, 0⟩,
    ⟨9375, 0, 1, 5⟩, ⟨9600, 7, 1, 2⟩, ⟨9720, 3, 5, 1⟩, ⟨10000, 4, 0, 4⟩, ⟨10125, 0, 4, 3⟩,
    ⟨10240, 11, 0, 1⟩, ⟨10368, 7, 4, 0⟩, ⟨10800, 4, 3, 2⟩, ⟨10935, 0, 7, 1⟩, ⟨11250, 1, 2, 4⟩,
    ⟨11520, 8, 2, 1⟩, ⟨11664, 4, 6, 0⟩, ⟨12000, 5, 1, 3⟩, ⟨12150, 1, 5, 2⟩, ⟨12288, 12, 1, 0⟩,
    ⟨12500, 2, 0, 5⟩, ⟨12800, 9, 0, 2⟩, ⟨12960, 5, 4, 1⟩, ⟨13122, 1, 8, 0⟩, ⟨13500, 2, 3, 3⟩,
    ⟨13824, 9, 3, 0⟩, ⟨14400, 6, 2, 2⟩, ⟨14580, 2, 6, 1⟩, ⟨15000, 3, 1, 4⟩, ⟨15360, 10, 1, 1⟩,
    ⟨15552, 6, 5, 0⟩, ⟨15625, 0, 0, 6⟩, ⟨16000, 7, 0, 3⟩, ⟨16200, 3, 4, 2⟩, ⟨16384, 14, 0, 0⟩,
    ⟨16875, 0, 3, 4⟩, ⟨17280, 7, 3, 1⟩, ⟨17496, 3, 7, 0⟩, ⟨18000, 4, 2, 3⟩, ⟨18225, 0, 6, 2⟩,
    ⟨18432, 11, 2, 0⟩, ⟨18750, 1, 1, 5⟩, ⟨19200, 8, 1, 2⟩, ⟨19440, 4, 5, 1⟩, ⟨19683, 0, 9, 0⟩,
    ⟨20000, 5, 0, 4⟩, ⟨20250, 1, 4, 3⟩, ⟨20480, 12, 0, 1⟩, ⟨20736, 8, 4, 0⟩, ⟨21600, 5, 3, 2⟩,
    ⟨21870, 1, 7, 1⟩, ⟨22500, 2, 2, 4⟩, ⟨23040, 9, 2, 1⟩, ⟨23328, 5, 6, 0⟩, ⟨24000, 6, 1, 3⟩,
    ⟨24300, 2, 5, 2⟩, ⟨24576, 13, 1, 0⟩, ⟨25000, 3, 0, 5⟩, ⟨25600, 10, 0, 2⟩, ⟨25920, 6, 4, 1⟩,
    ⟨26244, 2, 8, 0⟩, ⟨27000, 3, 3, 3⟩, ⟨27648, 10, 3, 0⟩, ⟨28125, 0, 2, 5⟩, ⟨28800, 7, 2, 2⟩,
    ⟨29160, 3, 6, 1⟩, ⟨30000, 4, 1, 4⟩, ⟨30375, 0, 5, 3⟩, ⟨30720, 11, 1, 1⟩, ⟨31104, 7, 5, 0⟩,
    ⟨31250, 1, 0, 6⟩, ⟨32000, 8, 0, 3⟩, ⟨32400, 4, 4, 2⟩, ⟨32768, 15, 0, 0⟩, ⟨32805, 0, 8, 1⟩,
    ⟨33750, 1, 3, 4⟩, ⟨34560, 8, 3, 1⟩, ⟨34992, 4, 7, 0⟩, ⟨36000, 5, 2, 3⟩, ⟨36450, 1, 6, 2⟩,
    ⟨36864, 12, 2, 0⟩, ⟨37500, 2, 1, 5⟩, ⟨38400, 9, 1, 2⟩, ⟨38880, 5, 5, 1⟩, ⟨39366, 1, 9, 0⟩,
    ⟨40000, 6, 0, 4⟩, ⟨40500, 2, 4, 3⟩, ⟨40960, 13, 0, 1⟩, ⟨41472, 9, 4, 0⟩, ⟨43200, 6, 3, 2⟩,
    ⟨43740, 2, 7, 1⟩, ⟨45000, 3, 2, 4⟩, ⟨46080, 10, 2, 1⟩, ⟨46656, 6, 6, 0⟩, ⟨46875, 0, 1, 6⟩,
    ⟨48000, 7, 1, 3⟩, ⟨48600, 3, 5, 2⟩, ⟨49152, 14, 1, 0⟩, ⟨50000, 4, 0, 5⟩, ⟨50625, 0, 4, 4⟩,
    ⟨51200, 11, 0, 2⟩, ⟨51840, 7, 4, 1⟩, ⟨52488, 3, 8, 0⟩, ⟨54000, 4, 3, 3⟩, ⟨54675, 0, 7, 2⟩,
    ⟨55296, 11, 3, 0⟩, ⟨56250, 1, 2, 5⟩, ⟨57600, 8, 2, 2⟩, ⟨58320, 4, 6, 1⟩, ⟨59049, 0, 10, 0⟩,
    ⟨60000, 5, 1, 4⟩, ⟨60750, 1, 5, 3⟩, ⟨61440, 12, 1, 1⟩, ⟨62208, 8, 5, 0⟩, ⟨62500, 2, 0, 6⟩,
    ⟨64000, 9, 0, 3⟩, ⟨64800, 5, 4, 2⟩, ⟨65536, 16, 0, 0⟩, ⟨65610, 1, 8, 1⟩, ⟨67500, 2, 3, 4⟩,
    ⟨69120, 9, 3, 1⟩, ⟨69984, 5, 7, 0⟩, ⟨72000, 6, 2, 3⟩, ⟨72900, 2, 6, 2⟩, ⟨73728, 13, 2, 0⟩,
    ⟨75000, 3, 1, 5⟩, ⟨76800, 10, 1, 2⟩, ⟨77760, 6, 5, 1⟩, ⟨78125, 0, 0, 7⟩, ⟨78732, 2, 9, 0⟩,
    ⟨80000, 7, 0, 4⟩, ⟨81000, 3, 4, 3⟩, ⟨81920, 14, 0, 1⟩, ⟨82944, 10, 4, 0⟩, ⟨84375, 0, 3, 5⟩,
    ⟨86400, 7, 3, 2⟩, ⟨87480, 3, 7, 1⟩, ⟨90000, 4, 2, 4⟩, ⟨91125, 0, 6, 3⟩, ⟨92160, 11, 2, 1⟩,
    ⟨93312, 7, 6, 0⟩, ⟨93750, 1, 1, 6⟩, ⟨96000, 8, 1, 3⟩, ⟨97200, 4, 5, 2⟩, ⟨98304, 15, 1, 0⟩,
    ⟨98415, 0, 9, 1⟩, ⟨100000, 5, 0, 5⟩, ⟨101250, 1, 4, 4⟩, ⟨102400, 12, 0, 2⟩, ⟨103680, 8, 4, 1⟩,
    ⟨104976, 4, 8, 0⟩, ⟨108000, 5, 3, 3⟩, ⟨109350, 1, 7, 2⟩, ⟨110592, 12, 3, 0⟩,
    ⟨112500, 2, 2, 5⟩, ⟨115200, 9, 2, 2⟩, ⟨116640, 5, 6, 1⟩, ⟨118098, 1, 10, 0⟩,
    ⟨120000, 6, 1, 4⟩, ⟨121500, 2, 5, 3⟩, ⟨122880, 13, 1, 1⟩, ⟨124416, 9, 5, 0⟩,
    ⟨125000, 3, 0, 6⟩, ⟨128000, 10, 0, 3⟩, ⟨129600, 6, 4, 2⟩, ⟨131072, 17, 0, 0⟩,
    ⟨131220, 2, 8, 1⟩, ⟨135000, 3, 3, 4⟩, ⟨138240, 10, 3, 1⟩, ⟨139968, 6, 7, 0⟩,
    ⟨140625, 0, 2, 6⟩, ⟨144000, 7, 2, 3⟩, ⟨145800, 3, 6, 2⟩, ⟨147456, 14, 2, 0⟩,
    ⟨150000, 4, 1, 5⟩, ⟨151875, 0, 5, 4⟩, ⟨153600, 11, 1, 2⟩, ⟨155520, 7, 5, 1⟩,
    ⟨156250, 1, 0, 7⟩, ⟨157464, 3, 9, 0⟩, ⟨160000, 8, 0, 4⟩, ⟨162000, 4, 4, 3⟩,
    ⟨163840, 15, 0, 1⟩]

/-- The loop of `find_largest_no_larger_than` from an entry on, with the entry before it.
There is none if it reads past either end of the table. -/
def findLargestFrom (number : ℕ) (last : Option Factorized) : List Factorized → Option Factorized
  | [] => none
  | entry :: rest =>
      if entry.number ≤ number then findLargestFrom number (some entry) rest else last

/-- `find_largest_no_larger_than`. -/
def findLargestNoLargerThan (number : ℕ) : Option Factorized :=
  findLargestFrom number none factorized

/-- The loop stops at the first entry that is too large. -/
theorem findLargestFrom_ok {number : ℕ} {last : Factorized} (small : last.number ≤ number)
    (entries : List Factorized) (beyond : ∃ entry ∈ entries, number < entry.number) :
    ∃ entry, findLargestFrom number (some last) entries = some entry ∧ entry.number ≤ number ∧
      (entry = last ∨ entry ∈ entries) := by
  induction entries generalizing last with
  | nil =>
      obtain ⟨entry, member, -⟩ := beyond
      cases member
  | cons next rest ih =>
      rw [findLargestFrom]
      split
      next fits =>
        obtain ⟨large, member, above⟩ := beyond
        have further : ∃ entry ∈ rest, number < entry.number := by
          rcases List.mem_cons.mp member with rfl | later
          · omega
          · exact ⟨large, later, above⟩
        obtain ⟨entry, found, bounded, origin⟩ := ih fits further
        refine ⟨entry, found, bounded, Or.inr ?_⟩
        rcases origin with rfl | later
        · exact List.mem_cons_self
        · exact List.mem_cons_of_mem _ later
      next => exact ⟨last, rfl, small, Or.inl rfl⟩

/-- Below the largest number of the table the lookup finds a number that is no larger. -/
theorem findLargestNoLargerThan_ok {number : ℕ} (positive : 1 ≤ number)
    (below : number < 163840) : ∃ entry ∈ factorized,
      findLargestNoLargerThan number = some entry ∧ entry.number ≤ number := by
  have table : factorized = ⟨1, 0, 0, 0⟩ :: factorized.tail := rfl
  have last : (⟨163840, 15, 0, 1⟩ : Factorized) ∈ factorized.tail := by decide +kernel
  obtain ⟨entry, found, bounded, origin⟩ := @findLargestFrom_ok number ⟨1, 0, 0, 0⟩ positive
    factorized.tail ⟨_, last, below⟩
  refine ⟨entry, ?_, ?_, bounded⟩
  · rw [table]
    exact List.mem_cons.mpr origin
  · rw [findLargestNoLargerThan, table, findLargestFrom, if_pos positive]
    exact found

theorem factorized_pos : ∀ entry ∈ factorized, 0 < entry.number := by
  decide +kernel

theorem factorized_exact : ∀ entry ∈ factorized, entry.Exact := by
  decide +kernel

/-- What the lookup finds is in the table, and is not too large. -/
theorem findLargestFrom_some {number : ℕ} {last : Option Factorized} {entries : List Factorized}
    {entry : Factorized} (found : findLargestFrom number last entries = some entry) :
    last = some entry ∨ entry ∈ entries ∧ entry.number ≤ number := by
  induction entries generalizing last with
  | nil => cases found
  | cons next rest ih =>
      rw [findLargestFrom] at found
      split at found
      next fits =>
        rcases ih found with same | ⟨later, small⟩
        · cases same
          exact Or.inr ⟨List.mem_cons_self, fits⟩
        · exact Or.inr ⟨List.mem_cons_of_mem _ later, small⟩
      next => exact Or.inl found

end Ympi.Shuffle
