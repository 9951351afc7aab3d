import Mathlib.Logic.Function.Basic

/-!
# Sets as lists in the order of a comparison

A set is a list without repetitions, kept in the order of a three-way comparison: negative,
zero or positive. Two elements that compare as zero count as the same element, and only the
first of them is kept, so what a set holds are the *keys* of its elements.

**The comparison need not be an order.** A difference of machine integers overflows, and then it
is not transitive; where an element is put does not matter for what is in the set.
-/
set_option autoImplicit false

namespace Exokernel.KeyedSet

variable {α : Type*} (cmp : α → α → Int)

/-- Put an element where the first greater one is, unless an equal one comes before. -/
def insert (e : α) : List α → List α
  | [] => [e]
  | x :: xs =>
    if cmp e x = 0 then x :: xs
    else if cmp e x < 0 then e :: x :: xs
    else x :: insert e xs

def member (s : List α) (e : α) : Bool := s.any fun x => cmp x e = 0

/-- Build a set from elements, one after the other. -/
def build (l : List α) : List α := l.foldl (fun s e => insert cmp e s) []

/-- A copy of `s₂`, and then the elements of `s₁` that are not in it. -/
def union (s₁ s₂ : List α) : List α :=
  s₁.foldl (fun s e => if member cmp s e then s else insert cmp e s) (build cmp s₂)

def diff (s₁ s₂ : List α) : List α :=
  build cmp (s₁.filter fun e => s₂.all fun x => cmp e x ≠ 0)

/-- Element by element, in order. -/
def eq (s₁ s₂ : List α) : Bool :=
  decide (s₁.length = s₂.length) && (s₁.zip s₂).all fun p => cmp p.1 p.2 = 0

/-- By sizes: as many elements are left as there are more in `s` than in `sub`. -/
def isSubset (s sub : List α) : Bool :=
  if s.length < sub.length then false
  else (diff cmp s sub).length = s.length - sub.length

end Exokernel.KeyedSet
