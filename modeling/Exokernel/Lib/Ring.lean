import Mathlib.Data.List.Nodup
import Mathlib.Logic.Function.Basic

/-!
# Rings — singly linked lists that end where they begin

`Circ next l` says that the cells of `l` are distinct and that following `next` from one leads to
the one after it, and from the last back to the first. **A ring has no beginning** (`Circ.rotate`):
which cell comes first depends only on the pointer one holds. So every edit is proved once, at
the front of the list, and carried to where it is needed by a rotation.
-/
set_option autoImplicit false

namespace Exokernel

open List Function

variable {N : Type*}

/-- Each cell of `l` leads to the next one, the last one to `b`. -/
def Follows (next : N → N) : List N → N → Prop
  | [], _ => True
  | a :: l, b => next a = l.headD b ∧ Follows next l b

namespace Follows

variable {next next' : N → N} {l l' : List N} {b : N}

theorem congr (h : Follows next l b) (hn : ∀ a ∈ l, next' a = next a) : Follows next' l b := by
  induction l with
  | nil => trivial
  | cons a l ih =>
    obtain ⟨ha, hl⟩ := h
    refine ⟨?_, ih hl fun c hc => hn c (mem_cons_of_mem a hc)⟩
    rw [hn a (mem_cons_self ..), ha]

theorem append_iff : Follows next (l ++ l') b ↔ Follows next l (l'.headD b) ∧ Follows next l' b := by
  induction l with
  | nil => simp [Follows]
  | cons a l ih =>
    have hhead : (l ++ l').headD b = l.headD (l'.headD b) := by
      cases l with
      | nil => rfl
      | cons c l => rfl
    simp only [cons_append, Follows, ih, hhead, and_assoc]

end Follows

/-- The cells of `l` form a ring. -/
def Circ (next : N → N) (l : List N) : Prop :=
  l.Nodup ∧ ∀ b, l.head? = some b → Follows next l b

namespace Circ

variable {next next' : N → N} {l l' : List N} {a c : N}

theorem nil : Circ next [] := ⟨List.nodup_nil, fun _ hb => nomatch hb⟩

theorem cons_iff : Circ next (a :: l) ↔ (a :: l).Nodup ∧ next a = l.headD a ∧ Follows next l a := by
  constructor
  · intro h
    exact ⟨h.1, h.2 a rfl⟩
  intro h
  refine ⟨h.1, fun b hb => ?_⟩
  cases hb
  exact h.2

theorem congr (h : Circ next l) (hn : ∀ a ∈ l, next' a = next a) : Circ next' l :=
  ⟨h.1, fun b hb => (h.2 b hb).congr hn⟩

/-- A ring may be entered anywhere. -/
theorem rotate (h : Circ next (l ++ l')) : Circ next (l' ++ l) := by
  cases l with
  | nil => simpa using h
  | cons a l =>
    cases l' with
    | nil => simpa using h
    | cons c l' =>
      have hf := Follows.append_iff.mp (h.2 a rfl)
      refine ⟨nodup_append_comm.mp h.1, fun b hb => ?_⟩
      obtain rfl : c = b := Option.some.inj hb
      exact Follows.append_iff.mpr ⟨hf.2, hf.1⟩

/-- Any cell of a ring may be made its first. -/
theorem exists_first (h : Circ next l) (ha : a ∈ l) :
    ∃ t, Circ next (a :: t) ∧ (a :: t).Perm l := by
  obtain ⟨s, t, rfl⟩ := append_of_mem ha
  refine ⟨t ++ s, h.rotate, ?_⟩
  show (a :: t ++ s).Perm (s ++ a :: t)
  exact perm_append_comm

theorem next_mem (h : Circ next l) (ha : a ∈ l) : next a ∈ l := by
  obtain ⟨t, ht, hperm⟩ := h.exists_first ha
  rw [← hperm.mem_iff, (cons_iff.mp ht).2.1]
  cases t with
  | nil => exact mem_cons_self ..
  | cons c t => exact mem_cons_of_mem _ (mem_cons_self ..)

/-- **The induction rule for rings**: what holds of the first cell and is handed on by `next` holds
    of all of them. -/
theorem forall_mem {P : N → Prop} (h : Circ next (a :: l)) (ha : P a)
    (hnext : ∀ c, P c → P (next c)) : ∀ c ∈ a :: l, P c := by
  have hall : ∀ (t : List N) (c b : N), Follows next (c :: t) b → P c → ∀ d ∈ c :: t, P d := by
    intro t
    induction t with
    | nil =>
      intro c b _ hc d hd
      rwa [mem_singleton.mp hd]
    | cons e t ih =>
      intro c b hf hc d hd
      have he : P e := by
        rw [← show next c = e from hf.1]
        exact hnext c hc
      rcases mem_cons.mp hd with rfl | hd
      · exact hc
      · exact ih e b hf.2 he d hd
  exact hall l a a (h.2 a rfl) ha

/-- The second cell is where the first leads. -/
theorem next_eq (h : Circ next (a :: c :: l)) : next a = c := (cons_iff.mp h).2.1

theorem next_self (h : Circ next [a]) : next a = a := (cons_iff.mp h).2.1

/-- A ring whose first cell leads to itself has no other. -/
theorem eq_singleton (h : Circ next (a :: l)) (ha : next a = a) : l = [] := by
  cases l with
  | nil => rfl
  | cons c l =>
    have hc : c = a := h.next_eq.symm.trans ha
    have hnd := h.1
    simp [hc] at hnd

variable [DecidableEq N]

/-- The only cell of a ring points at itself. -/
theorem singleton (next : N → N) (a : N) : Circ (Function.update next a a) [a] :=
  cons_iff.mpr ⟨List.nodup_singleton a, by simp, trivial⟩

/-- A new cell `c` goes in behind the first. -/
theorem insert (h : Circ next (a :: l)) (hc : c ∉ a :: l) :
    Circ (Function.update (Function.update next c (next a)) a c) (a :: c :: l) := by
  have hca : c ≠ a := fun h => hc (h ▸ mem_cons_self ..)
  have hcl : c ∉ l := fun h => hc (mem_cons_of_mem _ h)
  obtain ⟨hnd, hnext, hf⟩ := cons_iff.mp h
  have hal : a ∉ l := (nodup_cons.mp hnd).1
  refine cons_iff.mpr ⟨?_, ?_, ?_, ?_⟩
  · exact (Perm.swap a c l).nodup_iff.mp (nodup_cons.mpr ⟨hc, hnd⟩)
  · rw [update_self]
    rfl
  · rw [update_of_ne hca, update_self, hnext]
  · refine hf.congr fun d hd => ?_
    rw [update_of_ne (ne_of_mem_of_not_mem hd hal), update_of_ne (ne_of_mem_of_not_mem hd hcl)]

/-- The cell behind the first is cut out. -/
theorem removeNext (h : Circ next (a :: c :: l)) :
    Circ (Function.update next a (next c)) (a :: l) := by
  obtain ⟨hnd, -, hc, hf⟩ := cons_iff.mp h
  have hal : a ∉ l := fun hmem => (nodup_cons.mp hnd).1 (mem_cons_of_mem _ hmem)
  refine cons_iff.mpr ⟨?_, ?_, ?_⟩
  · exact nodup_cons.mpr ⟨hal, (nodup_cons.mp (nodup_cons.mp hnd).2).2⟩
  · rw [update_self, hc]
  exact hf.congr fun d hd => update_of_ne (ne_of_mem_of_not_mem hd hal) _ _

/-- A new cell `d` takes the place of the one behind the first. -/
theorem replaceNext {d : N} (h : Circ next (a :: c :: l)) (hd : d ∉ a :: c :: l) :
    Circ (Function.update (Function.update next d (next c)) a d) (a :: d :: l) := by
  have hdal : d ∉ a :: l := fun hmem => hd (((sublist_cons_self c l).cons_cons a).subset hmem)
  have hda : d ≠ a := fun h => hdal (h ▸ mem_cons_self ..)
  have hins := h.removeNext.insert hdal
  rwa [update_self, update_comm hda.symm, update_idem] at hins

/-- A new cell `c` goes in behind the last, `a`. -/
theorem append (h : Circ next (l ++ [a])) (hc : c ∉ l ++ [a]) :
    Circ (Function.update (Function.update next c (next a)) a c) (l ++ [a] ++ [c]) := by
  have hfirst : Circ next (a :: l) := h.rotate
  have hins := hfirst.insert (c := c) fun hmem => hc (by simpa [or_comm] using hmem)
  have hrot : Circ _ (l ++ [a, c]) := rotate (l := [a, c]) hins
  simpa using hrot

end Circ

end Exokernel
