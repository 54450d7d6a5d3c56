import Mathlib.Init

/-! # Computations that may end with an error

A computation in two parts has a result exactly if its first part has one with which the second
part has it. It ends with an error of either part.
-/

namespace Ympi.Foundation

universe u v

variable {Failure : Type u} {First Second : Type v} {first : Except Failure First}
  {second : First → Except Failure Second}

theorem exists_of_bind_ok {result : Second} (done : first >>= second = .ok result) :
    ∃ value, first = .ok value ∧ second value = .ok result := by
  cases first with
  | error failure => cases done
  | ok value => exact ⟨value, rfl, done⟩

theorem error_of_bind {failure : Failure} (failed : first >>= second = .error failure) :
    first = .error failure ∨ ∃ value, first = .ok value ∧ second value = .error failure := by
  cases first with
  | error found =>
      left
      cases failed
      rfl
  | ok value => exact .inr ⟨value, rfl, failed⟩

end Ympi.Foundation
