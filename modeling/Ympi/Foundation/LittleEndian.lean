import Mathlib.Algebra.Group.Nat.Defs

/-! # Little-endian numbers

The bytes of a number in memory, least significant first, and the number that is read back from
bytes. A number survives as far as there is room for it.
-/

namespace Ympi.Foundation

/-- The `width` lowest bytes of a number. -/
def bytesOf : ℕ → ℕ → List UInt8
  | 0, _ => []
  | width + 1, number => UInt8.ofNat number :: bytesOf width (number / 256)

/-- The number that the bytes stand for. -/
def numberOf : List UInt8 → ℕ
  | [] => 0
  | byte :: rest => byte.toNat + 256 * numberOf rest

@[simp] theorem length_bytesOf (width number : ℕ) : (bytesOf width number).length = width := by
  induction width generalizing number with
  | zero => rfl
  | succ width ih => rw [bytesOf, List.length_cons, ih]

/-- What is read back is the number, modulo what there is room for. -/
theorem numberOf_bytesOf (width number : ℕ) :
    numberOf (bytesOf width number) = number % 256 ^ width := by
  induction width generalizing number with
  | zero => rw [Nat.pow_zero, Nat.mod_one]; rfl
  | succ width ih =>
      have low : (UInt8.ofNat number).toNat = number % 256 := UInt8.toNat_ofNat'
      rw [bytesOf, numberOf, ih, low, Nat.pow_succ, Nat.mul_comm (256 ^ width), Nat.mod_mul]

end Ympi.Foundation
