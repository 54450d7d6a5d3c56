import Mathlib.Algebra.BigOperators.Group.List.Basic
import Mathlib.Algebra.Order.Group.Nat

/-! # Digits of a number in a mixed radix

A digit has a weight, its base, and a number of values, its size. The positions of a list
of sizes are the digits of a number system with these sizes, where the base of each digit
is the product of the sizes before it.
-/

namespace Ympi.Foundation

namespace MixedRadix

/-- The digit of `number` at `base` with `size` values. -/
def digit (base size number : ℕ) : ℕ :=
  number / base % size

/-- `number` with `value` as its digit. -/
def setDigit (base size number value : ℕ) : ℕ :=
  number / (base * size) * (base * size) + value * base + number % base

/-- The positions of the digits with the given sizes, from `base` on. -/
def positions : ℕ → List ℕ → List (ℕ × ℕ)
  | _, [] => []
  | base, size :: rest => (base, size) :: positions (base * size) rest

variable {base size number value : ℕ}

section Digit

theorem digit_lt (sizePositive : 0 < size) : digit base size number < size :=
  Nat.mod_lt _ sizePositive

/-- The part of a number up to a digit is that digit over the part below it. -/
theorem mod_mul_eq : number % (base * size) = digit base size number * base + number % base := by
  rw [Nat.mod_mul, digit, Nat.mul_comm, Nat.add_comm]

theorem low_lt (positive : 0 < base) (small : value < size) :
    value * base + number % base < base * size := by
  have low := Nat.mod_lt number positive
  calc value * base + number % base < value * base + base := by omega
    _ = (value + 1) * base := by rw [Nat.add_mul, Nat.one_mul]
    _ ≤ size * base := Nat.mul_le_mul_right _ small
    _ = base * size := Nat.mul_comm _ _

/-- Above the digit nothing changes. -/
theorem setDigit_div (positive : 0 < base) (small : value < size) :
    setDigit base size number value / (base * size) = number / (base * size) := by
  have low := @low_lt _ _ number _ positive small
  rw [setDigit, Nat.add_assoc, Nat.mul_comm (number / _), Nat.mul_add_div (by omega),
    Nat.div_eq_of_lt low, Nat.add_zero]

theorem setDigit_mod_mul (positive : 0 < base) (small : value < size) :
    setDigit base size number value % (base * size) = value * base + number % base := by
  rw [setDigit, Nat.add_assoc, Nat.mul_comm (number / _), Nat.mul_add_mod,
    Nat.mod_eq_of_lt (low_lt positive small)]

/-- Below the digit nothing changes. -/
theorem setDigit_mod (positive : 0 < base) (small : value < size) :
    setDigit base size number value % base = number % base := by
  have low := @setDigit_mod_mul base size number value positive small
  rw [← Nat.mod_mul_right_mod _ base size, low, Nat.mul_comm value, Nat.mul_add_mod,
    Nat.mod_mod]

theorem digit_setDigit (positive : 0 < base) (small : value < size) :
    digit base size (setDigit base size number value) = value := by
  have parts := @mod_mul_eq base size (setDigit base size number value)
  rw [setDigit_mod_mul positive small, setDigit_mod positive small] at parts
  exact (Nat.eq_of_mul_eq_mul_right positive (Nat.add_right_cancel parts)).symm

theorem setDigit_digit : setDigit base size number (digit base size number) = number := by
  rw [setDigit, Nat.add_assoc, ← mod_mul_eq, Nat.div_add_mod']

/-- Of two digits set in turn the second one stays. -/
theorem setDigit_setDigit {other : ℕ} (positive : 0 < base) (small : value < size) :
    setDigit base size (setDigit base size number value) other =
      setDigit base size number other := by
  rw [setDigit, setDigit_div positive small, setDigit_mod positive small]
  rfl

/-- A digit that cannot grow without the number exceeding itself is the last one. -/
theorem digit_eq_of_setDigit_le (positive : 0 < base) (sizePositive : 0 < size)
    (le : setDigit base size number (size - 1) ≤ number) :
    digit base size number = size - 1 := by
  have below := @digit_lt base size number sizePositive
  have parts : setDigit base size number (size - 1) ≤
      setDigit base size number (digit base size number) := by
    rw [setDigit_digit]
    exact le
  rw [setDigit, setDigit] at parts
  have most : size - 1 ≤ digit base size number :=
    Nat.le_of_mul_le_mul_right (by omega) positive
  omega

/-- With the last digit above a part that is full the part up to it is full. -/
theorem mod_mul_eq_pred (positive : 0 < base) (low : number % base = base - 1)
    (last : digit base size number = size - 1) (sizePositive : 0 < size) :
    number % (base * size) = base * size - 1 := by
  have whole : (size - 1) * base + base = base * size := by
    rw [← Nat.succ_mul, Nat.succ_eq_add_one, Nat.sub_add_cancel sizePositive, Nat.mul_comm]
  rw [mod_mul_eq, last, low]
  omega

/-- A number with another digit stays below a bound of whole turns of that digit. -/
theorem setDigit_lt {bound : ℕ} (positive : 0 < base) (small : value < size)
    (turns : base * size ∣ bound) (below : number < bound) :
    setDigit base size number value < bound := by
  obtain ⟨turns, rfl⟩ := turns
  have whole : 0 < base * size := Nat.mul_pos positive (by omega)
  rw [Nat.mul_comm, ← Nat.div_lt_iff_lt_mul whole] at below ⊢
  rw [setDigit_div positive small]
  exact below

/-- The digits of the quotient by `scale` are digits of the number. -/
theorem digit_div (scale : ℕ) :
    digit base size (number / scale) = digit (base * scale) size number := by
  rw [digit, digit, Nat.div_div_eq_div_mul, Nat.mul_comm scale]

theorem setDigit_div_mul (scale : ℕ) :
    setDigit base size (number / scale) value * scale + number % scale =
      setDigit (base * scale) size number value := by
  have whole : number / (scale * (base * size)) * (base * size) * scale =
      number / (base * scale * size) * (base * scale * size) := by
    rw [Nat.mul_assoc, Nat.mul_comm (base * size) scale, ← Nat.mul_assoc scale,
      Nat.mul_comm scale base]
  have low : number % (base * scale) = number / scale % base * scale + number % scale := by
    rw [Nat.mul_comm base, Nat.mod_mul, Nat.mul_comm scale, Nat.add_comm]
  rw [setDigit, setDigit, Nat.div_div_eq_div_mul, Nat.add_mul, Nat.add_mul, whole, low,
    Nat.mul_assoc value]
  omega

/-- The digits of the remainder by a multiple of `base * size` are digits of the number. -/
theorem digit_mod (positive : 0 < base) (turns : ℕ) :
    digit base size (number % (base * size * turns)) = digit base size number := by
  have remainder := @mod_mul_eq base size (number % (base * size * turns))
  rw [Nat.mod_mul_right_mod, Nat.mul_assoc base, Nat.mod_mul_right_mod, ← Nat.mul_assoc base,
    mod_mul_eq] at remainder
  exact (Nat.eq_of_mul_eq_mul_right positive (Nat.add_right_cancel remainder)).symm

theorem setDigit_mod_add (turns : ℕ) :
    number / (base * size * turns) * (base * size * turns) +
        setDigit base size (number % (base * size * turns)) value =
      setDigit base size number value := by
  have high : number / (base * size * turns) * (base * size * turns) +
      number % (base * size * turns) / (base * size) * (base * size) =
        number / (base * size) * (base * size) := by
    rw [Nat.mod_mul_right_div_self, ← Nat.div_div_eq_div_mul, Nat.mul_comm (base * size),
      ← Nat.mul_assoc, ← Nat.add_mul, Nat.div_add_mod']
  have low : number % (base * size * turns) % base = number % base := by
    rw [Nat.mul_assoc base, Nat.mod_mul_right_mod]
  rw [setDigit, setDigit, low, ← high]
  omega

end Digit

section Positions

theorem positions_length (base : ℕ) (sizes : List ℕ) :
    (positions base sizes).length = sizes.length := by
  induction sizes generalizing base with
  | nil => rfl
  | cons size rest ih => simp [positions, ih]

theorem map_snd_positions (base : ℕ) (sizes : List ℕ) :
    (positions base sizes).map Prod.snd = sizes := by
  induction sizes generalizing base with
  | nil => rfl
  | cons size rest ih => rw [positions, List.map_cons, ih]

theorem positions_append (base : ℕ) (front back : List ℕ) :
    positions base (front ++ back) = positions base front ++ positions (base * front.prod) back := by
  induction front generalizing base with
  | nil => simp [positions]
  | cons size rest ih =>
      rw [List.cons_append, positions, ih, positions, List.prod_cons, ← Nat.mul_assoc]
      rfl

/-- The base of a position is the product of the sizes before it. -/
theorem positions_getElem? (base : ℕ) (sizes : List ℕ) (index : ℕ) :
    (positions base sizes)[index]? =
      sizes[index]?.map fun size => (base * (sizes.take index).prod, size) := by
  induction sizes generalizing base index with
  | nil => simp [positions]
  | cons size rest ih =>
      cases index with
      | zero => simp [positions]
      | succ index =>
          rw [positions, List.getElem?_cons_succ, List.getElem?_cons_succ, ih, List.take_succ_cons,
            List.prod_cons, ← Nat.mul_assoc]

end Positions

section Replace

variable {target : ℕ}

/-- The number agrees with `target` below `base` and with `source` from `base` on. -/
structure Between (base source target number : ℕ) : Prop where
  low : number % base = target % base
  high : number / base = source / base

theorem Between.start (source target : ℕ) : Between 1 source target source :=
  ⟨by rw [Nat.mod_one, Nat.mod_one], rfl⟩

/-- Replacing the next digit by that of the target. -/
theorem Between.replace {source : ℕ} (between : Between base source target number)
    (positive : 0 < base) (sizePositive : 0 < size) :
    Between (base * size) source target
      (setDigit base size number (digit base size target)) := by
  have small := @digit_lt base size target sizePositive
  refine ⟨?_, ?_⟩
  · rw [setDigit_mod_mul positive small, between.low, ← mod_mul_eq]
  · rw [setDigit_div positive small, ← Nat.div_div_eq_div_mul, between.high,
      Nat.div_div_eq_div_mul]

/-- With all digits replaced the number is the target. -/
theorem Between.eq_target {source : ℕ} (between : Between base source target number)
    (source_lt : source < base) (target_lt : target < base) : number = target := by
  have high := between.high
  rw [Nat.div_eq_of_lt source_lt] at high
  have number_lt : number < base := by
    rcases Nat.div_eq_zero_iff.mp high with zero | below
    · omega
    · exact below
  have low := between.low
  rwa [Nat.mod_eq_of_lt number_lt, Nat.mod_eq_of_lt target_lt] at low

end Replace

end MixedRadix

end Ympi.Foundation
