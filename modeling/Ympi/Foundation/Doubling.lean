import Mathlib.Data.Nat.Bitwise

/-! # Doubling

A loop that doubles its variable from a power of two on goes through the powers of two in order.
-/

namespace Ympi.Foundation

/-- A power of two up to `last`. -/
@[ext]
structure Power (last : ℕ) where
  value : ℕ
  le : value ≤ last
  pow : ∃ exponent, value = 2 ^ exponent

namespace Power

variable {last last' : ℕ}

theorem exists_pow_mul_two {value : ℕ} (pow : ∃ exponent, value = 2 ^ exponent) :
    ∃ exponent, value * 2 = 2 ^ exponent := by
  obtain ⟨exponent, rfl⟩ := pow
  exact ⟨exponent + 1, (pow_succ 2 exponent).symm⟩

def weaken (power : Power last) (le : last ≤ last') : Power last' where
  value := power.value
  le := power.le.trans le
  pow := power.pow

theorem pos (power : Power last) : 0 < power.value := by
  obtain ⟨exponent, same⟩ := power.pow
  rw [same]
  exact Nat.two_pow_pos exponent

/-- The next power of two after `value` is its double. -/
theorem eq_or_double_le (power : Power last) {value : ℕ} (pow : ∃ exponent, value = 2 ^ exponent)
    (least : value ≤ power.value) : power.value = value ∨ value * 2 ≤ power.value := by
  obtain ⟨exponent, rfl⟩ := pow
  obtain ⟨exponent', same⟩ := power.pow
  rw [same] at least ⊢
  rcases ((Nat.pow_le_pow_iff_right Nat.one_lt_two).mp least).eq_or_lt with rfl | less
  · exact .inl rfl
  · refine .inr ?_
    rw [← pow_succ]
    exact Nat.pow_le_pow_right Nat.two_pos less

theorem and_pred (power : Power last) (number : ℕ) :
    number &&& (power.value - 1) = number % power.value := by
  obtain ⟨exponent, same⟩ := power.pow
  rw [same]
  exact Nat.and_two_pow_sub_one_eq_mod number exponent

/-- The values of a variable that is doubled after every turn of a loop, while they are no
larger than `last`. -/
def doublings (last : ℕ) : ℕ → (value : ℕ) → (∃ exponent, value = 2 ^ exponent) →
    List (Power last)
  | 0, _, _ => []
  | fuel + 1, value, pow =>
      if le : value ≤ last then
        ⟨value, le, pow⟩ :: doublings last fuel (value * 2) (exists_pow_mul_two pow)
      else []

theorem one_eq_pow : ∃ exponent, 1 = 2 ^ exponent := ⟨0, rfl⟩

/-- The first value of the loop. -/
theorem exists_doublings_eq_cons {fuel value : ℕ} (pow : ∃ exponent, value = 2 ^ exponent)
    (enough : 0 < fuel) (le : value ≤ last) :
    ∃ rest, doublings last fuel value pow = ⟨value, le, pow⟩ :: rest := by
  obtain ⟨fuel, rfl⟩ := Nat.exists_eq_add_one.mpr enough
  rw [doublings, dif_pos le]
  exact ⟨_, rfl⟩

theorem doublings_eq_nil {fuel value : ℕ} {pow : ∃ exponent, value = 2 ^ exponent}
    (beyond : last < value) : doublings last fuel value pow = [] := by
  cases fuel with
  | zero => rfl
  | succ fuel => rw [doublings, dif_neg (Nat.not_le.mpr beyond)]

/-- The loop goes through the powers of two from its first value on. -/
theorem mem_doublings {fuel value : ℕ} {pow : ∃ exponent, value = 2 ^ exponent}
    (enough : last < value + fuel) (power : Power last) :
    power ∈ doublings last fuel value pow ↔ value ≤ power.value := by
  induction fuel generalizing value with
  | zero =>
      have least := power.le
      simp only [doublings, List.not_mem_nil, false_iff]
      omega
  | succ fuel ih =>
      have positive : 0 < value := by
        obtain ⟨exponent, rfl⟩ := pow
        exact Nat.two_pow_pos exponent
      by_cases le : value ≤ last
      · rw [doublings, dif_pos le, List.mem_cons, ih (by omega), Power.ext_iff]
        constructor
        · intro member
          dsimp only at member
          omega
        · intro least
          exact power.eq_or_double_le pow least
      · have least := power.le
        rw [doublings, dif_neg le]
        simp only [List.not_mem_nil, false_iff]
        omega

/-- The variable only grows. -/
theorem le_of_mem_doublings {fuel value : ℕ} {pow : ∃ exponent, value = 2 ^ exponent}
    {power : Power last} (member : power ∈ doublings last fuel value pow) :
    value ≤ power.value := by
  induction fuel generalizing value with
  | zero => cases member
  | succ fuel ih =>
      by_cases le : value ≤ last
      · rw [doublings, dif_pos le] at member
        rcases List.mem_cons.mp member with rfl | later
        · exact le_rfl
        · have double := ih later
          omega
      · rw [doublings, dif_neg le] at member
        cases member

/-- The loop comes to each value by way of smaller ones. -/
theorem exists_append_of_mem_doublings {fuel value : ℕ} {pow : ∃ exponent, value = 2 ^ exponent}
    {power : Power last} (member : power ∈ doublings last fuel value pow) :
    ∃ front back, doublings last fuel value pow = front ++ power :: back ∧
      ∀ other ∈ front, other.value < power.value := by
  induction fuel generalizing value with
  | zero => cases member
  | succ fuel ih =>
      by_cases le : value ≤ last
      · rw [doublings, dif_pos le] at member ⊢
        rcases List.mem_cons.mp member with rfl | later
        · exact ⟨[], _, rfl, fun other none => absurd none List.not_mem_nil⟩
        · obtain ⟨front, back, parts, smaller⟩ := ih later
          refine ⟨_ :: front, back, by rw [parts]; rfl, ?_⟩
          intro other listed
          rcases List.mem_cons.mp listed with rfl | listed'
          · have double := le_of_mem_doublings later
            have positive := pos ⟨value, le, pow⟩
            dsimp only at positive ⊢
            omega
          · exact smaller other listed'
      · rw [doublings, dif_neg le] at member
        cases member

end Power

end Ympi.Foundation
