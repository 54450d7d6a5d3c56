import Mathlib.Algebra.BigOperators.Group.Finset.Basic
import Mathlib.Data.Fintype.BigOperators
import Mathlib.Tactic.Abel

/-! # Sums over an updated family

Changing one member of a finite family changes a sum over the family by the
difference of that member's summands. The equation is stated without subtraction.
-/

namespace Ympi.Foundation

universe u v w

variable {ι : Type u} [Fintype ι] [DecidableEq ι]

/-- Replacing one member of a family exchanges its weight in the total. -/
theorem sum_update_add {β : Type v} {M : Type w} [AddCommMonoid M] (weight : β → M)
    (family : ι → β) (index : ι) (value : β) :
    (∑ i, weight (Function.update family index value i)) + weight (family index) =
      (∑ i, weight (family i)) + weight value := by
  have others : ∑ i ∈ Finset.univ.erase index, weight (Function.update family index value i) =
      ∑ i ∈ Finset.univ.erase index, weight (family i) := by
    apply Finset.sum_congr rfl
    intro i member
    rw [Function.update_of_ne (Finset.ne_of_mem_erase member)]
  rw [← Finset.add_sum_erase Finset.univ (fun i => weight (Function.update family index value i))
      (Finset.mem_univ index),
    ← Finset.add_sum_erase Finset.univ (fun i => weight (family i)) (Finset.mem_univ index), others,
    Function.update_self]
  abel

omit [Fintype ι] in
/-- What a member keeps when it is replaced all members keep. -/
theorem apply_update_eq {β : Type v} {γ : Type w} {g : β → γ} {family : ι → β} {index : ι} {value : β}
    (same : g value = g (family index)) (i : ι) :
    g (Function.update family index value i) = g (family i) := by
  by_cases here : i = index
  · rw [here, Function.update_self, same]
  · rw [Function.update_of_ne here]

/-- Natural numbers that sum to one are all zero but for a single one. -/
theorem exists_of_sum_eq_one {family : ι → ℕ} (single : (∑ i, family i) = 1) :
    ∃ index, family index = 1 ∧ ∀ other, other ≠ index → family other = 0 := by
  obtain ⟨index, -, positive⟩ : ∃ index ∈ Finset.univ, family index ≠ 0 :=
    Finset.exists_ne_zero_of_sum_ne_zero (by rw [single]; exact one_ne_zero)
  have split := Finset.add_sum_erase Finset.univ family (Finset.mem_univ index)
  refine ⟨index, by omega, ?_⟩
  intro other apart
  have none : (∑ i ∈ Finset.univ.erase index, family i) = 0 := by omega
  exact Finset.sum_eq_zero_iff.mp none other (Finset.mem_erase.mpr ⟨apart, Finset.mem_univ other⟩)

end Ympi.Foundation
