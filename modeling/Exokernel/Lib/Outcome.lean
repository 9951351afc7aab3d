import Mathlib.Tactic.Common

/-!
# Steps that may fail, one after the other

From the result of a chain of fallible steps these rules give the results of the steps, first to
last, so that a proof about the chain need not unfold its binds.
-/
set_option autoImplicit false

namespace Exokernel.Outcome

variable {ε α β : Type} {x : Except ε α} {a : α} {b : β}

theorem bind_ok {f : α → Except ε β} : x >>= f = .ok b ↔ ∃ a, x = .ok a ∧ f a = .ok b := by
  cases x with
  | error e => simp [bind, Except.bind]
  | ok a => simp [bind, Except.bind]

theorem map_ok {f : α → β} : x.map f = .ok b ↔ ∃ a, x = .ok a ∧ f a = b := by
  cases x with
  | error e => simp [Except.map]
  | ok a => simp [Except.map]

/-- The result meets `p`, or the error meets `err`. -/
def Ends (p : α → Prop) (err : ε → Prop) : Except ε α → Prop
  | .ok a => p a
  | .error e => err e

variable {p : α → Prop} {q : β → Prop} {err : ε → Prop}

theorem Ends.ok (h : Ends p err x) (hx : x = .ok a) : p a := by
  rw [hx] at h
  exact h

theorem Ends.exists_ok (h : Ends p err x) (hn : ∀ e, ¬err e) : ∃ a, x = .ok a ∧ p a := by
  cases x with
  | error e => exact absurd h (hn e)
  | ok a => exact ⟨a, rfl, h⟩

theorem Ends.imp {p' : α → Prop} {err' : ε → Prop} (h : Ends p err x) (hp : ∀ a, p a → p' a)
    (herr : ∀ e, err e → err' e) : Ends p' err' x := by
  cases x with
  | error e => exact herr e h
  | ok a => exact hp a h

theorem Ends.bind {f : α → Except ε β} (h : Ends p err x) (hf : ∀ a, p a → Ends q err (f a)) :
    Ends q err (x >>= f) := by
  cases x with
  | error e => exact h
  | ok a => exact hf a h

theorem Ends.map {f : α → β} (h : Ends p err x) (hf : ∀ a, p a → q (f a)) :
    Ends q err (x.map f) := by
  cases x with
  | error e => exact h
  | ok a => exact hf a h

/-- A step with a state ends with a result and a state that meet `p`, or it fails and its state
    meets `err`. -/
def Lands {σ : Type} (p : α → σ → Prop) (err : σ → Prop) : Except ε α × σ → Prop
  | (.ok a, s) => p a s
  | (.error _, s) => err s

/-- There is a result and it meets `p`, or there is none and `no` holds. -/
def Gives (p : α → Prop) (no : Prop) : Option α → Prop
  | some a => p a
  | none => no

theorem Gives.some {no : Prop} {o : Option α} (h : Gives p no o) (ho : o = some a) : p a := by
  rw [ho] at h
  exact h

theorem Gives.isSome {no : Prop} {o : Option α} (h : Gives p no o) (hno : ¬no) : o.isSome := by
  cases o with
  | none => exact absurd h hno
  | some a => rfl

end Exokernel.Outcome
