import Mathlib.Algebra.BigOperators.Group.Finset.Basic
import Mathlib.Algebra.BigOperators.Ring.Finset
import Mathlib.Algebra.Order.BigOperators.Group.Finset
import Mathlib.Data.Finset.Card
import Mathlib.Data.Fintype.Basic
import Mathlib.Data.Fintype.Card

/-!
# Tallies — how a count moves when one place changes

A kernel keeps counters of things it could also count by looking: mapped slots,
dirty buffers. The facts needed to compare the counter with the count are always
the same: **changing one place moves the count by one, and changing nothing the
predicate reads leaves it alone.**
-/
set_option autoImplicit false

namespace Exokernel
namespace Tally

open List

/-! ## 1. Places of a finite type -/

section Places

variable {ι : Type*} [Fintype ι]

/-- How many places satisfy `p`. -/
def tally (p : ι → Bool) : Nat := (Finset.univ.filter fun i => p i = true).card

variable {p p' : ι → Bool} {i : ι}

theorem tally_congr (h : ∀ j, p' j = p j) : tally p' = tally p := by
  rw [show p' = p from funext h]

theorem tally_pos (hi : p i = true) : 0 < tally p :=
  Finset.card_pos.mpr ⟨i, by simp [hi]⟩

theorem tally_eq_zero : tally p = 0 ↔ ∀ j, p j = false := by
  simp [tally, Finset.filter_eq_empty_iff]

theorem tally_le_card : tally p ≤ Fintype.card ι :=
  Finset.card_le_univ _

end Places

/-! ## 2. Members of a family of lists -/

section Family

variable {κ α : Type*} [Fintype κ]

/-- How many members of the lists satisfy `p`. -/
def familyCount (f : κ → List α) (p : α → Bool) : Nat := ∑ q, (f q).countP p

variable {f f' : κ → List α} {p p' : α → Bool} {a : α} {q : κ}

theorem familyCount_congr (hf : ∀ q, f' q = f q) (hp : ∀ q, ∀ b ∈ f q, p' b = p b) :
    familyCount f' p' = familyCount f p := by
  refine Finset.sum_congr rfl fun q _ => ?_
  rw [hf q]
  exact countP_congr fun b hb => by rw [hp q b hb]

/-- What counts for one member changes. -/
theorem countP_change [DecidableEq α] {l : List α} (hl : l.Nodup) (ha : a ∈ l)
    (h : ∀ b ∈ l, b ≠ a → p' b = p b) :
    l.countP p' + (p a).toNat = l.countP p + (p' a).toNat := by
  induction l with
  | nil => simp at ha
  | cons b l ih =>
    obtain ⟨hbl, hl⟩ := nodup_cons.mp hl
    rw [countP_cons, countP_cons]
    by_cases hb : b = a
    · subst hb
      have hrest : l.countP p' = l.countP p :=
        countP_congr fun c hc => by
          rw [h c (mem_cons_of_mem _ hc) (fun hcb => hbl (hcb ▸ hc))]
      rw [hrest]
      cases p b <;> cases p' b <;> simp
    · have hal : a ∈ l := (mem_cons.mp ha).resolve_left (fun h => hb h.symm)
      have hrest := ih hl hal fun c hc => h c (mem_cons_of_mem _ hc)
      rw [h b mem_cons_self hb]
      omega

/-- One place changes. -/
theorem tally_change {ι : Type*} [Fintype ι] [DecidableEq ι] {p p' : ι → Bool} {i : ι}
    (h : ∀ j, j ≠ i → p' j = p j) : tally p' + (p i).toNat = tally p + (p' i).toNat := by
  have hlist : ∀ q : ι → Bool, tally q = Finset.univ.toList.countP q := fun q => by
    rw [tally, Finset.card_def, Finset.filter_val, ← Multiset.countP_eq_card_filter,
      ← Finset.coe_toList, Multiset.coe_countP]
    simp
  rw [hlist, hlist]
  exact countP_change (Finset.nodup_toList _) (Finset.mem_toList.mpr (Finset.mem_univ i))
    fun j _ => h j

theorem tally_update {ι : Type*} [Fintype ι] [DecidableEq ι] (p : ι → Bool) (i : ι) (b : Bool) :
    tally (Function.update p i b) + (p i).toNat = tally p + b.toNat := by
  simpa using tally_change (i := i) fun j hj => Function.update_of_ne hj b p

theorem countP_flip [DecidableEq α] {l : List α} (hl : l.Nodup) (ha : a ∈ l) (hpa : p a = false)
    (hpa' : p' a = true) (h : ∀ b, b ≠ a → p' b = p b) : l.countP p' = l.countP p + 1 := by
  have hchange := countP_change hl ha fun b _ => h b
  rw [hpa, hpa'] at hchange
  exact hchange

/-- One member, in one list only, starts to satisfy the predicate. -/
theorem familyCount_flip [DecidableEq κ] [DecidableEq α] (hq : (f q).Nodup) (ha : a ∈ f q) (hne : ∀ r, r ≠ q → a ∉ f r)
    (hpa : p a = false) (hpa' : p' a = true) (h : ∀ b, b ≠ a → p' b = p b) :
    familyCount f p' = familyCount f p + 1 := by
  have hterm : ∀ r, (f r).countP p' = (f r).countP p + if r = q then 1 else 0 := by
    intro r
    by_cases hr : r = q
    · subst hr; simpa using countP_flip hq ha hpa hpa' h
    · rw [if_neg hr, Nat.add_zero]
      exact countP_congr fun b hb => by rw [h b fun hba => hne r hr (hba ▸ hb)]
  simp only [familyCount, hterm, Finset.sum_add_distrib, Finset.sum_ite_eq', Finset.mem_univ,
    if_true]

/-- A new member that does not satisfy the predicate is not counted. -/
theorem familyCount_push [DecidableEq κ] (ha : p a = false) :
    familyCount (Function.update f q (a :: f q)) p = familyCount f p := by
  refine Finset.sum_congr rfl fun r _ => ?_
  by_cases hr : r = q
  · subst hr; simp [ha]
  · simp [Function.update_of_ne hr]

/-- Dropping a member that does not satisfy the predicate changes nothing. -/
theorem familyCount_erase [DecidableEq α] (ha : p a = false) :
    familyCount (fun q => (f q).erase a) p = familyCount f p := by
  refine Finset.sum_congr rfl fun r _ => ?_
  simp [countP_erase, ha]

/-- Numbers below `n`, spread over the lists without repetition, are at most `n`. -/
theorem familyCount_le {g : κ → List Nat} {p : Nat → Bool} {n : Nat} (hnd : ∀ q, (g q).Nodup)
    (hone : ∀ q r, ∀ a ∈ g q, a ∈ g r → q = r) (hlt : ∀ q, ∀ a ∈ g q, a < n) :
    familyCount g p ≤ n := by
  classical
  have hdisj : ((Finset.univ : Finset κ) : Set κ).PairwiseDisjoint fun q => (g q).toFinset := by
    intro q _ r _ hqr
    rw [Function.onFun, Finset.disjoint_left]
    intro a ha ha'
    exact hqr (hone q r a (mem_toFinset.mp ha) (mem_toFinset.mp ha'))
  calc familyCount g p
      ≤ ∑ q, (g q).length := Finset.sum_le_sum fun q _ => countP_le_length
    _ = (Finset.univ.biUnion fun q => (g q).toFinset).card := by
        rw [Finset.card_biUnion hdisj]
        exact Finset.sum_congr rfl fun q _ => (toFinset_card_of_nodup (hnd q)).symm
    _ ≤ (Finset.range n).card := by
        refine Finset.card_le_card fun a ha => ?_
        obtain ⟨q, -, ha⟩ := Finset.mem_biUnion.mp ha
        exact Finset.mem_range.mpr (hlt q a (mem_toFinset.mp ha))
    _ = n := Finset.card_range n

end Family

/-! ## 3. One place of a list -/

/-- Exactly one element of a list without repetitions has a property. -/
theorem countP_eq_one {α : Type*} {l : List α} {q : α → Bool} (hnd : l.Nodup) {a : α}
    (ha : a ∈ l) (hq : q a = true) (huniq : ∀ c ∈ l, q c = true → c = a) : l.countP q = 1 := by
  classical
  rw [← count_eq_one_of_mem hnd ha, count]
  refine countP_congr fun c hc => ⟨fun h => ?_, fun h => ?_⟩
  · exact beq_iff_eq.mpr (huniq c hc h)
  · exact beq_iff_eq.mp h ▸ hq

end Tally
end Exokernel
