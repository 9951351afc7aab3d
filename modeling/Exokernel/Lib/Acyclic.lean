import Mathlib.Logic.Relation
import Mathlib.Order.WellFounded

/-!
# Growing a well-founded relation

`R t u` says that `t` lies below `u`. Structures that point at one another are well founded as
long as no pointer closes a circle, and **a new pointer from `a` down to `t` closes one exactly
if `a` could be reached from `t` before**. A new element that points nowhere never does.
-/
set_option autoImplicit false

namespace Exokernel.Acyclic

open Relation

variable {α : Type} {R R' : α → α → Prop}

/-- From `u` one comes down to `t` in zero or more steps. -/
def Down (R : α → α → Prop) : α → α → Prop := ReflTransGen fun u t => R t u

/-- In a well-founded relation one does not come back up. -/
theorem not_down_of_below (h : WellFounded R) {t a : α} (hta : R t a) : ¬Down R t a := by
  intro hdown
  have hcircle : TransGen R a a := by
    have hback : ReflTransGen R a t := reflTransGen_swap.mp hdown
    exact TransGen.tail' hback hta
  exact h.transGen.irrefl.irrefl a hcircle

/-- New elements `S` that nothing lies below, and new pointers from `a` to elements `T` from
    which `a` could not be reached. -/
theorem wellFounded_add (h : WellFounded R) {a : α} {S T : α → Prop}
    (hsub : ∀ t u, R' t u → R t u ∨ S t ∨ u = a ∧ T t)
    (hS : ∀ z, S z → ∀ t, ¬R' t z) (hT : ∀ t, T t → ¬Down R t a) : WellFounded R' := by
  have hsink : ∀ z, S z → Acc R' z := fun z hz => ⟨z, fun t ht => absurd ht (hS z hz t)⟩
  -- first whatever does not lead to `a`, then `a`, then the rest
  have hfar : ∀ u, ¬Down R u a → Acc R' u := by
    intro u
    induction u using h.induction with
    | _ u ih =>
      intro hu
      refine ⟨u, fun t ht => ?_⟩
      rcases hsub t u ht with hR | hz | ⟨rfl, -⟩
      · exact ih t hR fun hdown => hu (.head hR hdown)
      · exact hsink t hz
      · exact absurd .refl hu
  have hat : Acc R' a := by
    refine ⟨a, fun t ht => ?_⟩
    rcases hsub t a ht with hR | hz | ⟨-, hTt⟩
    · exact hfar t (not_down_of_below h hR)
    · exact hsink t hz
    · exact hfar t (hT t hTt)
  refine ⟨fun u => ?_⟩
  induction u using h.induction with
  | _ u ih =>
    refine ⟨u, fun t ht => ?_⟩
    rcases hsub t u ht with hR | hz | ⟨rfl, -⟩
    · exact ih t hR
    · exact hsink t hz
    · exact hat.inv ht

end Exokernel.Acyclic
