import Mathlib.Data.List.Basic
import Mathlib.Logic.Function.Basic

/-!
# Chains — a singly linked list threaded through memory

`Chain next o l` says that following `next` from the pointer `o` visits the cells of
`l` in order and ends at a null pointer. The predicate only looks at the links of the
cells that are on the list (`Chain.congr`), so a write elsewhere does not matter.

**`sweep` is the loop with a pointer to a pointer**: it walks along, and the place
that points at the current cell is either the list's head or the link of the last
cell that was kept. What it leaves is the list without the cells it was told to drop
(`Chain.sweep`).
-/
set_option autoImplicit false

namespace Exokernel

open List

variable {N : Type*}

/-- The cells that are visited from `o` on. -/
def Chain (next : N → Option N) : Option N → List N → Prop
  | o, [] => o = none
  | o, a :: l => o = some a ∧ Chain next (next a) l

namespace Chain

variable {next next' : N → Option N} {o : Option N} {l : List N}

theorem congr (h : Chain next o l) (hn : ∀ a ∈ l, next' a = next a) : Chain next' o l := by
  induction l generalizing o with
  | nil => exact h
  | cons a l ih =>
    obtain ⟨ho, hl⟩ := h
    refine ⟨ho, ?_⟩
    rw [hn a (by simp)]
    exact ih hl fun b hb => hn b (by simp [hb])

theorem head_eq (h : Chain next o l) : o = l.head? := by
  cases l with
  | nil => exact h
  | cons a l => exact h.1

theorem nil_iff (h : Chain next o l) : o = none ↔ l = [] := by
  cases l with
  | nil => exact ⟨fun _ => rfl, fun _ => h⟩
  | cons a l => simp [h.1]

variable [DecidableEq N]

/-- Writing the link of a cell that is not on the list. -/
theorem update (h : Chain next o l) {a : N} (ha : a ∉ l) (v : Option N) :
    Chain (Function.update next a v) o l := by
  refine h.congr fun b hb => Function.update_of_ne ?_ _ _
  rintro rfl
  exact ha hb

end Chain

/-! ## Dropping cells -/

/-- A list's head pointer together with the links. -/
structure Heap1 (N : Type*) where
  head : Option N
  next : N → Option N

variable [DecidableEq N]

/-- `*r2 = v`, where `r2` is the address of the head or of a cell's link. -/
def Heap1.store (s : Heap1 N) (r2 v : Option N) : Heap1 N :=
  match r2 with
  | none => { s with head := v }
  | some a => { s with next := Function.update s.next a v }

/-- Walk from `r` on and drop the cells that `drop` says; `r2` is where the pointer to
    the current cell is stored. There is no result if the walk is longer than `n`
    cells. -/
def sweep (drop : N → Bool) : Nat → Option N → Option N → Heap1 N → Option (Heap1 N)
  | _, _, none, s => some s
  | 0, _, some _, _ => none
  | n + 1, r2, some a, s =>
    if drop a then sweep drop n r2 (s.next a) (s.store r2 (s.next a))
    else sweep drop n (some a) (s.next a) s

/-- The cell after the kept ones is taken out of the list. -/
theorem Chain.store_last {s : Heap1 N} {ks l : List N} {a : N}
    (h : Chain s.next s.head (ks ++ a :: l)) (hnodup : (ks ++ a :: l).Nodup) :
    Chain (s.store ks.getLast? (s.next a)).next (s.store ks.getLast? (s.next a)).head (ks ++ l) := by
  rcases eq_nil_or_concat ks with rfl | ⟨ks, k, rfl⟩
  · exact h.2
  simp only [concat_eq_append, List.getLast?_concat, Heap1.store]
  generalize s.head = o at h
  rw [concat_eq_append, append_assoc] at h hnodup
  rw [append_assoc]
  -- the walk over the cells before `k` is as it was
  induction ks generalizing o with
  | nil =>
    obtain ⟨ho, ha, hl⟩ := h
    refine ⟨ho, ?_⟩
    have hk : k ∉ l := by
      simp only [nil_append, singleton_append, nodup_cons, mem_cons, not_or] at hnodup
      exact hnodup.1.2
    simpa using hl.update hk (s.next a)
  | cons b ks ih =>
    obtain ⟨ho, hrest⟩ := h
    refine ⟨ho, ?_⟩
    have hb : b ≠ k := by
      rintro rfl
      simp at hnodup
    rw [Function.update_of_ne hb]
    exact ih (nodup_cons.mp hnodup).2 _ hrest

/-- What the sweep leaves: the kept cells, in order. The links of all other cells are
    untouched. -/
theorem Chain.sweep_spec (drop : N → Bool) (n : Nat) :
    ∀ (s : Heap1 N) (ks l : List N), Chain s.next s.head (ks ++ l) → (ks ++ l).Nodup →
      (∀ k ∈ ks, drop k = false) → l.length ≤ n →
      ∃ t, sweep drop n ks.getLast? l.head? s = some t ∧
        Chain t.next t.head (ks ++ l.filter fun a => !drop a) ∧
        ∀ b, b ∉ ks ++ l → t.next b = s.next b := by
  induction n with
  | zero =>
    intro s ks l h _ _ hlen
    obtain rfl : l = [] := length_eq_zero_iff.mp (Nat.le_zero.mp hlen)
    exact ⟨s, rfl, by simpa using h, fun _ _ => rfl⟩
  | succ n ih =>
    intro s ks l h hnodup hks hlen
    cases l with
    | nil => exact ⟨s, by simp [sweep], by simpa using h, fun _ _ => rfl⟩
    | cons a l =>
      have hnext : s.next a = l.head? := by
        clear ih hks hlen hnodup
        generalize s.head = o at h
        induction ks generalizing o with
        | nil => exact h.2.head_eq
        | cons k ks ih => exact ih _ h.2
      simp only [List.head?_cons, sweep]
      cases hd : drop a with
      | true =>
        have hlen' : l.length ≤ n := by simpa using hlen
        have hsub : (ks ++ l).Sublist (ks ++ a :: l) :=
          (sublist_cons_self a l).append_left ks
        have hstep := ih _ ks l (h.store_last hnodup) (hnodup.sublist hsub) hks hlen'
        obtain ⟨t, ht, hchain, hrest⟩ := hstep
        refine ⟨t, ?_, ?_, fun b hb => ?_⟩
        · rw [if_pos rfl, hnext]
          rw [hnext] at ht
          exact ht
        · simpa [hd] using hchain
        have hb' : b ∉ ks ++ l := fun hm => hb (hsub.subset hm)
        rw [hrest b hb']
        unfold Heap1.store
        split
        · rfl
        rename_i k hk
        have hkmem : k ∈ ks := mem_of_getLast? hk
        exact Function.update_of_ne (fun he => hb (by simp [he, hkmem])) _ _
      | false =>
        have hlen' : l.length ≤ n := by simpa using hlen
        have hks' : ∀ k ∈ ks ++ [a], drop k = false := by
          intro k hk
          rcases mem_append.mp hk with hk | hk
          · exact hks k hk
          · rw [mem_singleton.mp hk, hd]
        have hassoc : ks ++ [a] ++ l = ks ++ a :: l := by simp
        obtain ⟨t, ht, hchain, hrest⟩ :=
          ih s (ks ++ [a]) l (hassoc ▸ h) (hassoc ▸ hnodup) hks' hlen'
        refine ⟨t, ?_, ?_, fun b hb => hrest b (hassoc ▸ hb)⟩
        · rw [if_neg (by simp), hnext]
          simpa using ht
        · simpa [hd] using hchain

end Exokernel
