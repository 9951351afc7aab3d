import Mathlib.Logic.Function.Basic

/-!
# Tables that change in one place
-/
set_option autoImplicit false

namespace Exokernel

/-- What a change of one entry does not change, of that entry or another. -/
theorem of_update {ι α β : Type*} [DecidableEq ι] (φ : α → β) {f : ι → α} {a i : ι} {x : α}
    (h : a = i → φ x = φ (f a)) : φ (Function.update f a x i) = φ (f i) := by
  by_cases ha : a = i
  · subst ha
    rw [Function.update_self, h rfl]
  · rw [Function.update_of_ne (Ne.symm ha)]

end Exokernel
