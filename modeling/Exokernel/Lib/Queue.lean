import Mathlib.Data.List.Nodup
import Mathlib.Logic.Function.Basic

/-!
# Doubly linked lists with a head — the `LIST_*` macros of `queue.h`

The kernel's lists are intrusive: an element holds a pointer to the next element
and the *address of the pointer that points at it*, which is either a list head or
the `le_next` field of its predecessor. `Links` is that memory, for heads of type
`H` and elements of type `N`, and the operations are the macros, pointer for
pointer.

`Holds L f` says what the pointers mean: head `h` leads, along `le_next`, to exactly
the elements `f h`. **Removal leaves the removed element's own `le_next` alone** — code
that unlinks an element while it is walking past it relies on that — and that is
part of what is proved here.
-/
set_option autoImplicit false

namespace Exokernel
namespace Queue

open List Function

variable {H N : Type}

/-- `lh_first`, `le_next` and `le_prev`. -/
structure Links (H N : Type) where
  first : H → Option N
  next : N → Option N
  prev : N → H ⊕ N

namespace Links

/-- What the pointer at a given place points to. -/
def deref (L : Links H N) : H ⊕ N → Option N
  | .inl h => L.first h
  | .inr a => L.next a

variable [DecidableEq H] [DecidableEq N]

/-- `LIST_INIT`. -/
def init (L : Links H N) (h : H) : Links H N :=
  { L with first := Function.update L.first h none }

/-- `LIST_INSERT_HEAD`. -/
def insertHead (L : Links H N) (h : H) (n : N) : Links H N where
  first := Function.update L.first h (some n)
  next := Function.update L.next n (L.first h)
  prev :=
    match L.first h with
    | none => Function.update L.prev n (.inl h)
    | some m => Function.update (Function.update L.prev m (.inr n)) n (.inl h)

/-- `LIST_REMOVE`. -/
def remove (L : Links H N) (n : N) : Links H N where
  first :=
    match L.prev n with
    | .inl h => Function.update L.first h (L.next n)
    | .inr _ => L.first
  next :=
    match L.prev n with
    | .inl _ => L.next
    | .inr a => Function.update L.next a (L.next n)
  prev :=
    match L.next n with
    | none => L.prev
    | some m => Function.update L.prev m (L.prev n)

end Links

/-! ## 1. Segments -/

/-- From a pointer at `src` with value `o`, the elements `l` follow one another, each
    knowing where it is pointed at from, and the last one ends the list. -/
def Seg (L : Links H N) : H ⊕ N → Option N → List N → Prop
  | _, o, [] => o = none
  | src, o, n :: l => o = some n ∧ L.prev n = src ∧ Seg L (.inr n) (L.next n) l

/-- A segment only depends on the pointers inside its elements. -/
theorem Seg.congr {L L' : Links H N} : ∀ {l : List N} {src : H ⊕ N} {o : Option N},
    Seg L src o l → (∀ n ∈ l, L'.next n = L.next n) → (∀ n ∈ l, L'.prev n = L.prev n) →
    Seg L' src o l := by
  intro l
  induction l with
  | nil => intro src o h _ _; exact h
  | cons n l ih =>
    intro src o h hn hp
    obtain ⟨ho, hprev, hrest⟩ := h
    refine ⟨ho, by rw [hp n (by simp), hprev], ?_⟩
    rw [hn n (by simp)]
    exact ih hrest (fun a ha => hn a (by simp [ha])) fun a ha => hp a (by simp [ha])

theorem Seg.mem_of_some {L : Links H N} {l : List N} {src : H ⊕ N} {m : N}
    (h : Seg L src (some m) l) : m ∈ l ∧ L.prev m = src := by
  cases l with
  | nil => cases h
  | cons b l =>
    obtain ⟨hb, hprev, -⟩ := h
    cases hb
    exact ⟨mem_cons_self, hprev⟩

/-- An element that follows another one is pointed at from it. -/
theorem Seg.next_mem {L : Links H N} : ∀ {l : List N} {src : H ⊕ N} {o : Option N},
    Seg L src o l → ∀ n ∈ l, ∀ m, L.next n = some m → m ∈ l ∧ L.prev m = .inr n := by
  intro l
  induction l with
  | nil => intro src o _ n hn; exact absurd hn (by simp)
  | cons a l ih =>
    intro src o h n hn m hm
    obtain ⟨_, _, hrest⟩ := h
    refine And.imp_left (mem_cons_of_mem a) ?_
    rcases mem_cons.mp hn with rfl | hn
    · exact (hm ▸ hrest).mem_of_some
    · exact ih hrest n hn m hm

/-- Every element is pointed at from the start of the segment or from inside it. -/
theorem Seg.prev_mem {L : Links H N} : ∀ {l : List N} {src : H ⊕ N} {o : Option N},
    Seg L src o l → ∀ n ∈ l, L.prev n = src ∨ ∃ a ∈ l, L.prev n = .inr a := by
  intro l
  induction l with
  | nil => intro src o _ n hn; exact absurd hn (by simp)
  | cons a l ih =>
    intro src o h n hn
    obtain ⟨_, hprev, hrest⟩ := h
    rcases mem_cons.mp hn with rfl | hn
    · exact .inl hprev
    rcases ih hrest n hn with hx | ⟨c, hc, hx⟩
    · exact .inr ⟨a, by simp, hx⟩
    · exact .inr ⟨c, by simp [hc], hx⟩

/-! ## 2. Unlinking inside a segment -/

variable [DecidableEq H] [DecidableEq N]

/-- `LIST_REMOVE` of a member takes it out of its segment. The pointer at `src` may be
    the one that is redirected. -/
theorem Seg.remove {L : Links H N} {n : N} : ∀ {l : List N} {src : H ⊕ N},
    Seg L src (L.deref src) l → l.Nodup → (∀ a, src = .inr a → a ∉ l) → n ∈ l →
    Seg (L.remove n) src ((L.remove n).deref src) (l.erase n) := by
  intro l
  induction l with
  | nil => intro src _ _ _ hn; exact absurd hn (by simp)
  | cons k l ih =>
    intro src h hnd hsrc hn
    obtain ⟨ho, hprev, hrest⟩ := h
    obtain ⟨hkl, hnd⟩ := nodup_cons.mp hnd
    by_cases hkn : k = n
    · -- the head of the segment goes: `src` now points to what followed it
      subst hkn
      rw [erase_cons_head]
      have hderef : (L.remove k).deref src = L.next k := by
        cases src <;> simp [Links.deref, Links.remove, hprev]
      rw [hderef]
      cases l with
      | nil => exact hrest
      | cons m l =>
        obtain ⟨hm, hmprev, hrest⟩ := hrest
        obtain ⟨hml, _⟩ := nodup_cons.mp hnd
        have hsame : ∀ a ∈ m :: l, (L.remove k).next a = L.next a := by
          intro a ha
          cases src with
          | inl s => simp [Links.remove, hprev]
          | inr s =>
            have has : a ≠ s := fun has => hsrc s rfl (has ▸ mem_cons_of_mem _ ha)
            simp [Links.remove, hprev, has]
        refine ⟨hm, by simp [Links.remove, hm, hprev], ?_⟩
        rw [hsame m (by simp)]
        refine Seg.congr hrest (fun a ha => hsame a (mem_cons_of_mem _ ha)) fun a ha => ?_
        have ham : a ≠ m := fun ham => hml (ham ▸ ha)
        simp [Links.remove, hm, ham]
    · have hnl : n ∈ l := (mem_cons.mp hn).resolve_left fun hx => hkn hx.symm
      rw [erase_cons_tail (by simpa using hkn)]
      -- `n` is pointed at from inside this segment, so `src` and `k` keep their places
      have hprevn : ∃ a ∈ k :: l, L.prev n = .inr a := by
        rcases hrest.prev_mem n hnl with hx | ⟨a, ha, hx⟩
        · exact ⟨k, by simp, hx⟩
        · exact ⟨a, by simp [ha], hx⟩
      obtain ⟨a, ha, hpn⟩ := hprevn
      have hderef : (L.remove n).deref src = L.deref src := by
        cases src with
        | inl s => simp [Links.deref, Links.remove, hpn]
        | inr s =>
          have hsa : s ≠ a := fun hsa => hsrc s rfl (hsa ▸ ha)
          simp [Links.deref, Links.remove, hpn, hsa]
      have hprevk : (L.remove n).prev k = L.prev k := by
        cases hnext : L.next n with
        | none => simp [Links.remove, hnext]
        | some m =>
          have hml := (hrest.next_mem n hnl m hnext).1
          have hkm : k ≠ m := fun hkm => hkl (hkm ▸ hml)
          simp [Links.remove, hnext, hkm]
      refine ⟨by rw [hderef, ho], by rw [hprevk, hprev], ?_⟩
      exact ih hrest hnd (fun c hc => by cases hc; exact hkl) hnl

/-! ## 3. Families of lists -/

/-- Each head leads to its own list, and no element is on two. -/
structure Holds (L : Links H N) (f : H → List N) : Prop where
  seg : ∀ h, Seg L (.inl h) (L.first h) (f h)
  nodup : ∀ h, (f h).Nodup
  apart : ∀ h k n, n ∈ f h → n ∈ f k → h = k

variable {L : Links H N} {f : H → List N} {h : H} {n : N}

omit [DecidableEq H] [DecidableEq N] in
theorem Holds.first_eq (hL : Holds L f) (h : H) : L.first h = (f h).head? := by
  have hs := hL.seg h
  cases hf : f h with
  | nil => rw [hf] at hs; exact hs
  | cons n l => rw [hf] at hs; exact hs.1

omit [DecidableEq N] in
/-- Dropping a list on the floor. -/
theorem Holds.init (hL : Holds L f) (h : H) :
    Holds (L.init h) (Function.update f h []) where
  seg k := by
    by_cases hk : k = h
    · subst hk; simp [Links.init, Seg]
    · simp only [Links.init, update_of_ne hk]
      exact (hL.seg k).congr (fun _ _ => rfl) fun _ _ => rfl
  nodup k := by
    by_cases hk : k = h
    · subst hk; simp
    · simpa [update_of_ne hk] using hL.nodup k
  apart k k' n hn hn' := by
    by_cases hk : k = h
    · subst hk; simp at hn
    by_cases hk' : k' = h
    · subst hk'; simp at hn'
    rw [update_of_ne hk] at hn
    rw [update_of_ne hk'] at hn'
    exact hL.apart k k' n hn hn'

/-- A new element goes to the front. -/
theorem Holds.insertHead (hL : Holds L f) (hn : ∀ k, n ∉ f k) :
    Holds (L.insertHead h n) (Function.update f h (n :: f h)) where
  seg k := by
    -- inside the old lists only the old first element of `h` learns a new predecessor
    have hnext : ∀ k, ∀ a ∈ f k, (L.insertHead h n).next a = L.next a := by
      intro k a ha
      have han : a ≠ n := fun han => hn k (han ▸ ha)
      simp [Links.insertHead, han]
    by_cases hk : k = h
    · subst hk
      rw [update_self]
      refine ⟨by simp [Links.insertHead], ?_, ?_⟩
      · cases hf : L.first k <;> simp [Links.insertHead, hf]
      rw [show (L.insertHead k n).next n = L.first k by simp [Links.insertHead]]
      have hs := hL.seg k
      have hnd := hL.nodup k
      have hnx := hnext k
      have hnk := hn k
      cases hf : f k with
      | nil => rw [hf] at hs; exact hs
      | cons m l =>
        rw [hf] at hs hnd hnx hnk
        obtain ⟨hm, -, hrest⟩ := hs
        obtain ⟨hml, -⟩ := nodup_cons.mp hnd
        have hmn : m ≠ n := fun hmn => hnk (by simp [hmn])
        refine ⟨hm, by simp [Links.insertHead, hm, hmn], ?_⟩
        rw [hnx m (by simp)]
        refine hrest.congr (fun a ha => hnx a (by simp [ha])) fun a ha => ?_
        have ham : a ≠ m := fun ham => hml (ham ▸ ha)
        have han : a ≠ n := fun han => hnk (by simp [← han, ha])
        simp [Links.insertHead, hm, ham, han]
    · rw [update_of_ne hk, show (L.insertHead h n).first k = L.first k by
        simp [Links.insertHead, hk]]
      refine (hL.seg k).congr (hnext k) fun a ha => ?_
      have han : a ≠ n := fun han => hn k (han ▸ ha)
      cases hf : L.first h with
      | none => simp [Links.insertHead, hf, han]
      | some m =>
        have hmh : m ∈ f h := by
          have := hL.first_eq h
          rw [hf] at this
          exact mem_of_head? this.symm
        have ham : a ≠ m := fun ham => hk (hL.apart k h a ha (ham ▸ hmh))
        simp [Links.insertHead, hf, ham, han]
  nodup k := by
    by_cases hk : k = h
    · subst hk; simpa using ⟨hn k, hL.nodup k⟩
    · simpa [update_of_ne hk] using hL.nodup k
  apart k k' a ha ha' := by
    have hmem : ∀ j, a ∈ Function.update f h (n :: f h) j → (a = n ∧ j = h) ∨ a ∈ f j := by
      intro j hj
      by_cases hjh : j = h
      · subst hjh
        rw [update_self, mem_cons] at hj
        exact hj.imp_left fun hx => ⟨hx, rfl⟩
      · rw [update_of_ne hjh] at hj
        exact .inr hj
    rcases hmem k ha with ⟨rfl, rfl⟩ | hk
    · rcases hmem k' ha' with ⟨_, rfl⟩ | hk'
      · rfl
      · exact absurd hk' (hn k')
    rcases hmem k' ha' with ⟨rfl, rfl⟩ | hk'
    · exact absurd hk (hn k)
    · exact hL.apart k k' a hk hk'

/-- An element is taken out of the list it is on; the others are as they were. -/
theorem Holds.remove (hL : Holds L f) (hn : n ∈ f h) :
    Holds (L.remove n) (Function.update f h ((f h).erase n)) where
  seg k := by
    by_cases hk : k = h
    · subst hk
      rw [update_self]
      exact (hL.seg k).remove (hL.nodup k) (fun a ha => by cases ha) hn
    rw [update_of_ne hk]
    have hprevn : L.prev n = .inl h ∨ ∃ a ∈ f h, L.prev n = .inr a := (hL.seg h).prev_mem n hn
    have hfirst : (L.remove n).first k = L.first k := by
      rcases hprevn with hp | ⟨a, _, hp⟩
      · simp [Links.remove, hp, hk]
      · simp [Links.remove, hp]
    rw [hfirst]
    refine (hL.seg k).congr (fun c hc => ?_) fun c hc => ?_
    · rcases hprevn with hp | ⟨a, ha, hp⟩
      · simp [Links.remove, hp]
      · have hca : c ≠ a := fun hca => hk (hL.apart k h c hc (hca ▸ ha))
        simp [Links.remove, hp, hca]
    · cases hnext : L.next n with
      | none => simp [Links.remove, hnext]
      | some m =>
        have hmh := ((hL.seg h).next_mem n hn m hnext).1
        have hcm : c ≠ m := fun hcm => hk (hL.apart k h c hc (hcm ▸ hmh))
        simp [Links.remove, hnext, hcm]
  nodup k := by
    by_cases hk : k = h
    · subst hk; simpa using (hL.nodup k).erase n
    · simpa [update_of_ne hk] using hL.nodup k
  apart k k' a ha ha' := by
    have hsub : ∀ j, a ∈ Function.update f h ((f h).erase n) j → a ∈ f j := by
      intro j hj
      by_cases hjh : j = h
      · subst hjh
        rw [update_self] at hj
        exact mem_of_mem_erase hj
      · rwa [update_of_ne hjh] at hj
    exact hL.apart k k' a (hsub k ha) (hsub k' ha')

omit [DecidableEq H] [DecidableEq N] in
/-- A pointer inside a segment leads back to where it came from. -/
theorem Seg.prev_next : ∀ {l : List N} {src : H ⊕ N} {o : Option N}, Seg L src o l →
    ∀ n ∈ l, ∀ a, L.prev n = .inr a → src = .inr a ∧ o = some n ∨ L.next a = some n := by
  intro l
  induction l with
  | nil => intro src o _ n hn; exact absurd hn (by simp)
  | cons c l ih =>
    intro src o h n hn a ha
    obtain ⟨ho, hprev, hrest⟩ := h
    rcases mem_cons.mp hn with rfl | hn
    · exact .inl ⟨hprev.symm.trans ha, ho⟩
    rcases ih hrest n hn a ha with ⟨hsrc, hnext⟩ | hnext
    · cases hsrc; exact .inr hnext
    · exact .inr hnext

/-- What points to the removed element now points past it. The removed element itself still points
    to what followed it. -/
theorem Holds.remove_next (hL : Holds L f) (hn : n ∈ f h) (a : N) :
    L.next a = some n ∧ (L.remove n).next a = L.next n ∨ (L.remove n).next a = L.next a := by
  cases hp : L.prev n with
  | inl _ => exact .inr (by simp [Links.remove, hp])
  | inr c =>
    by_cases hac : a = c
    · subst hac
      rcases (hL.seg h).prev_next n hn a hp with ⟨hsrc, -⟩ | hnext
      · cases hsrc
      · exact .inl ⟨hnext, by simp [Links.remove, hp]⟩
    · exact .inr (by simp [Links.remove, hp, hac])

theorem Holds.remove_next_self (hL : Holds L f) (hn : n ∈ f h) :
    (L.remove n).next n = L.next n := by
  rcases hL.remove_next hn n with ⟨-, h⟩ | h <;> exact h

/-! ## 4. Walking a list while it changes

A walk holds a pointer to some element and follows `le_next`. What it still has to
visit must stay reachable, whatever is unlinked meanwhile. -/

/-- Following `le_next` from pointer `o`, one comes to `n`. -/
inductive Leads (L : Links H N) : Option N → N → Prop where
  | here (n : N) : Leads L (some n) n
  | there {a n : N} (h : Leads L (L.next a) n) : Leads L (some a) n

omit [DecidableEq H] [DecidableEq N] in
theorem Seg.leads : ∀ {l : List N} {src : H ⊕ N} {o : Option N}, Seg L src o l →
    ∀ n ∈ l, Leads L o n := by
  intro l
  induction l with
  | nil => intro src o _ n hn; exact absurd hn (by simp)
  | cons a l ih =>
    intro src o h n hn
    obtain ⟨rfl, -, hrest⟩ := h
    rcases mem_cons.mp hn with rfl | hn
    · exact .here n
    · exact .there (ih hrest n hn)

/-- **An element that stays is still reached from wherever it was reached**, also from an
    element that has been unlinked. -/
theorem Leads.remove (hL : Holds L f) {z : N} (hz : z ∈ f h) (hne : n ≠ z) {o : Option N}
    (hl : Leads L o n) : Leads (L.remove z) o n := by
  induction hl with
  | here => exact .here _
  | @there a n _ ih =>
    have ih := ih hne
    refine .there ?_
    rcases hL.remove_next hz a with ⟨hnext, hpast⟩ | hsame
    · -- the walk stands right before `z`: it now skips it
      rw [hnext] at ih
      cases ih with
      | here => exact absurd rfl hne
      | there ih => rwa [hpast, ← hL.remove_next_self hz]
    · rwa [hsame]

/-! ## 5. Walks that end -/

/-- From an element of `l` one step along `le_next` leads to a later element of `l`. -/
def Forward (L : Links H N) : List N → Prop
  | [] => True
  | n :: l => (∀ m, L.next n = some m → m ∈ l) ∧ Forward L l

omit [DecidableEq H] [DecidableEq N] in
theorem Seg.forward : ∀ {l : List N} {src : H ⊕ N} {o : Option N}, Seg L src o l →
    Forward L l := by
  intro l
  induction l with
  | nil => intro src o _; trivial
  | cons a l ih =>
    intro src o h
    obtain ⟨-, -, hrest⟩ := h
    exact ⟨fun m hm => (hm ▸ hrest).mem_of_some.1, ih hrest⟩

omit [DecidableEq H] [DecidableEq N] in
theorem Forward.next_mem : ∀ {l : List N}, Forward L l → ∀ n ∈ l, ∀ m, L.next n = some m →
    m ∈ l := by
  intro l
  induction l with
  | nil => intro _ n hn; exact absurd hn (by simp)
  | cons a l ih =>
    intro h n hn m hm
    rcases mem_cons.mp hn with rfl | hn
    · exact mem_cons_of_mem _ (h.1 m hm)
    · exact mem_cons_of_mem _ (ih h.2 n hn m hm)

/-- **Unlinking turns no walk back**: the element before the unlinked one now points past it. -/
theorem Forward.remove (hL : Holds L f) {z : N} (hz : z ∈ f h) : ∀ {l : List N}, Forward L l →
    Forward (L.remove z) l := by
  intro l
  induction l with
  | nil => intro _; trivial
  | cons a l ih =>
    intro hl
    refine ⟨fun m hm => ?_, ih hl.2⟩
    rcases hL.remove_next hz a with ⟨hnext, hpast⟩ | hsame
    · exact hl.2.next_mem z (hl.1 z hnext) m (hpast ▸ hm)
    · exact hl.1 m (hsame ▸ hm)

end Queue
end Exokernel
