import Mathlib.Tactic.Common

/-!
# Enough fuel

Recursion that a program does not bound is modelled with a fuel argument, and running out of
fuel is a computation that does not return. **A computation returns if all large enough
amounts of fuel give it the same result**, and that is what `Settles` says. The rules follow the
program: a step after another one settles if both do.
-/
set_option autoImplicit false

namespace Exokernel.Fuel

variable {α β : Type}

/-- With enough fuel the computation returns `a`. -/
def SettlesAt (g : Nat → Option α) (a : α) : Prop := ∃ N, ∀ n, N ≤ n → g n = some a

/-- With enough fuel the computation returns. -/
def Settles (g : Nat → Option α) : Prop := ∃ a, SettlesAt g a

variable {g : Nat → Option α} {a : α}

/-- A result that is settled on is one the computation has for some amount of fuel. -/
theorem SettlesAt.exists_eq (h : SettlesAt g a) : ∃ n, g n = some a := by
  obtain ⟨N, hN⟩ := h
  exact ⟨N, hN N (Nat.le_refl N)⟩

theorem Settles.pure (a : α) : Settles fun _ => some a := ⟨a, 0, fun _ _ => rfl⟩

/-- More fuel than needed does no harm. -/
theorem SettlesAt.add (h : SettlesAt g a) (k : Nat) : SettlesAt (fun n => g (n + k)) a := by
  obtain ⟨N, hN⟩ := h
  exact ⟨N, fun n hn => hN (n + k) (by omega)⟩

/-- A computation that spends one unit before it starts. -/
theorem Settles.succ (h : Settles fun n => g (n + 1)) : Settles g := by
  obtain ⟨a, N, hN⟩ := h
  refine ⟨a, N + 1, fun n hn => ?_⟩
  obtain ⟨m, rfl⟩ : ∃ m, n = m + 1 := ⟨n - 1, by omega⟩
  exact hN m (by omega)

/-- One computation after another. -/
theorem Settles.bind {k : Nat → α → Option β} (h : Settles g)
    (hk : ∀ a, SettlesAt g a → Settles fun n => k n a) :
    Settles fun n => (g n).bind (k n) := by
  obtain ⟨a, ha⟩ := h
  obtain ⟨b, M, hM⟩ := hk a ha
  obtain ⟨N, hN⟩ := ha
  refine ⟨b, max N M, fun n hn => ?_⟩
  dsimp only
  rw [hN n (by omega), Option.bind_some]
  exact hM n (by omega)

end Exokernel.Fuel
