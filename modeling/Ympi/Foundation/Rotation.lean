import Mathlib.Data.Nat.Basic

/-! # Rotations

The loop `for(d = (q+1)%n; d != q; d = (d+1)%n)` visits the numbers below `n` other
than `q`. The number of turns before `d` comes up in it counts up to `n - 1`, where
the loop ends; every other number comes up at a turn of its own.
-/

namespace Ympi.Foundation

/-- The turns of the rotation after `origin` before `target` comes up. -/
def turnsBefore (n origin target : ℕ) : ℕ :=
  if origin < target then target - origin - 1 else target + n - origin - 1

theorem succ_mod_eq {n target : ℕ} (below : target < n) :
    (target + 1) % n = if target + 1 = n then 0 else target + 1 := by
  split
  next wraps => rw [wraps, Nat.mod_self]
  next => exact Nat.mod_eq_of_lt (by omega)

variable {n origin target : ℕ}

theorem turnsBefore_start (below : origin < n) : turnsBefore n origin ((origin + 1) % n) = 0 := by
  rw [succ_mod_eq below, turnsBefore]
  split <;> split <;> omega

theorem turnsBefore_next (below : origin < n) (inside : target < n) (other : target ≠ origin) :
    turnsBefore n origin ((target + 1) % n) = turnsBefore n origin target + 1 := by
  rw [succ_mod_eq inside, turnsBefore, turnsBefore]
  split <;> split <;> split <;> omega

theorem turnsBefore_self : turnsBefore n origin origin = n - 1 := by
  rw [turnsBefore]
  split <;> omega

/-- Every number other than the origin comes up before the rotation ends. -/
theorem turnsBefore_lt (below : origin < n) (inside : target < n) (other : target ≠ origin) :
    turnsBefore n origin target < n - 1 := by
  rw [turnsBefore]
  split <;> omega

theorem turnsBefore_inj {first second : ℕ} (below : origin < n) (inside : first < n)
    (inside' : second < n) (same : turnsBefore n origin first = turnsBefore n origin second) :
    first = second := by
  rw [turnsBefore, turnsBefore] at same
  split at same <;> split at same <;> omega

end Ympi.Foundation
