import Exokernel.Lib.Update
import Exokernel.Libos.Files

/-!
# Stances — a logic for interleaved calls on files

The calls that open, copy and close descriptors run in many processes at once, on one table.
Whether a count is right can only be asked when nobody is in the middle of a call.

**What a process is about to do with an entry is its stance to it**, and a stance says how many
references the process accounts for. A count is the sum of these numbers. `Safe` is a logic for
the code of one process: what it may do in which stance, whatever the others do. `EntryOk` says
which stances the processes can have to one entry at the same time. A step of one process keeps
both (`Accounted.step`), if it does not disturb what another one is in the middle of.
-/
set_option autoImplicit false

namespace Exokernel.Libos

open Function Bool

/-! ## 1. Code that is in the middle of something -/

/-- Before a store, or a test, of a count that belongs to a load that has been made. -/
def Code.before (test : Bool) (f : Filp) : Code → Bool
  | .store g _ k => (!test && g = f) || k.before test f
  | .ifZero g k₁ k₂ => (test && g = f) || k₁.before test f || k₂.before test f
  | .load g k => g ≠ f && k.before test f
  | .lockFilp _ k | .unlockFilp _ k | .init _ k | .close _ k | .putfilp _ k | .set _ _ k =>
    k.before test f
  | .done | .getfilp _ | .op _ _ _ | .namei _ _ _ | .spawn _ _ | .die | .wild => false

/-- Before the last test of a count that it decrements. -/
abbrev Code.testing (f : Filp) (c : Code) : Bool := c.before true f

/-- Between `lock_filp` and `unlock_filp`. -/
def Code.inLock (f : Filp) : Code → Bool
  | .unlockFilp g k => g = f || k.inLock f
  | .lockFilp g k => g ≠ f && k.inLock f
  | .load _ k | .store _ _ k | .init _ k | .close _ k | .putfilp _ k | .set _ _ k => k.inLock f
  | .ifZero _ k₁ k₂ => k₁.inLock f && k₂.inLock f
  | .done | .getfilp _ | .op _ _ _ | .namei _ _ _ | .spawn _ _ | .die | .wild => false

/-! ## 2. Stances -/

/-- What a process is doing with an entry: nothing; it has loaded its count; it has decremented
    it and will test it, for the first time or again; it has seen zero, and has closed it or not;
    or the entry is its own, with any count, with count zero, and with count zero loaded. -/
inductive Part where
  | none
  | rmw (v : BitVec 16)
  | dropped (again : Bool)
  | last (closed : Bool)
  | raw
  | zeroed
  | loaded

/-- The references of a process to an entry, what it is doing with it, and whether it has its
    lock. -/
structure Stance where
  refs : Nat
  part : Part
  held : Bool

/-- Before a store, or before a test. -/
def Part.pending (test : Bool) : Part → Bool
  | .rmw _ => !test
  | .dropped _ => test
  | _ => false

/-- Nothing is being done. -/
abbrev Stance.idle (n : Nat) : Stance := ⟨n, .none, false⟩

/-- Nobody else has to wait. -/
def Stance.Quiet (a : Stance) : Prop :=
  a.held = false ∧ (a.part = .none ∨ a.part = .raw ∨ a.part = .zeroed)

abbrev Stances := Filp → Stance

/-- **Code that a process may run in a stance**, with its slots and what it has loaded. -/
def Safe : Code → Slots → BitVec 16 → Stances → Prop
  | .done, σ, _, st =>
    (∀ f, st f = .idle (σ.count f)) ∧ (σ .cwd).isSome = true ∧ (σ .root).isSome = true
  | .lockFilp f k, σ, r, st =>
    (st f).held = false ∧ (1 ≤ (st f).refs ∨ ∃ b, (st f).part = .last b) ∧
      Safe k σ r (update st f { st f with held := true })
  | .unlockFilp f k, σ, r, st =>
    (st f).held = true ∧ Safe k σ r (update st f { st f with held := false })
  | .load f k, σ, _, st =>
    (st f).part = .none ∧ 1 ≤ (st f).refs ∧
        (∀ v, Safe k σ v (update st f { st f with part := .rmw v })) ∨
      (st f).part = .zeroed ∧ Safe k σ 0 (update st f { st f with part := .loaded })
  | .store f true k, σ, r, st =>
    (st f).part = .rmw r ∧
        Safe k σ r (update st f { st f with refs := (st f).refs + 1, part := .none }) ∨
      (st f).part = .loaded ∧ r = 0 ∧
        Safe k σ r (update st f { st f with refs := 1, part := .none })
  | .store f false k, σ, r, st =>
    (st f).part = .rmw r ∧ (st f).held = true ∧ 1 ≤ (st f).refs ∧
      Safe k σ r (update st f { st f with refs := (st f).refs - 1, part := .dropped false })
  | .init f k, σ, r, st =>
    ((st f).part = .raw ∨ (st f).part = .zeroed ∨ (st f).part = .loaded) ∧
      Safe k σ r (update st f { st f with part := .zeroed })
  | .ifZero f k₁ k₂, σ, r, st =>
    (∃ again, (st f).part = .dropped again ∧
        (again = false → Safe k₁ σ r (update st f { st f with part := .last false })) ∧
        Safe k₂ σ r (update st f
          { st f with part := if k₂.testing f then .dropped true else .none })) ∨
      ((∃ b, (st f).part = .last b) ∨ (st f).part = .zeroed) ∧ Safe k₁ σ r st
  | .close f k, σ, r, st =>
    (st f).part = .last false ∧ Safe k σ r (update st f { st f with part := .last true })
  | .putfilp f k, σ, r, st =>
    (st f).held = false ∧
      ((st f).part = .last true ∨ (st f).part = .raw ∨ (st f).part = .zeroed) ∧
      Safe k σ r (update st f { st f with part := .none })
  | .set a o k, σ, r, st => Safe k (update σ a o) r st
  | .getfilp k, σ, r, st =>
    (∀ f, (st f).Quiet) ∧ Safe (k none) σ r st ∧
      ∀ f, st f = .idle 0 → Safe (k (some f)) σ r (update st f ⟨0, .raw, false⟩)
  | .op f k₁ k₂, σ, r, st =>
    (∀ g, (st g).Quiet) ∧ ((st f).part = .raw ∨ (st f).part = .zeroed) ∧
      Safe k₁ σ r (update st f { st f with part := .raw }) ∧
      Safe k₂ σ r (update st f { st f with part := .zeroed })
  | .namei f k₁ k₂, σ, r, st =>
    (∀ g, (st g).Quiet) ∧ ((st f).part = .raw ∨ (st f).part = .zeroed) ∧
      Safe k₁ σ r (update st f { st f with part := .raw }) ∧
      Safe k₂ σ r (update st f { st f with part := .raw })
  | .spawn k₁ _, σ, r, st =>
    (∀ f, st f = .idle (2 * σ.count f)) ∧ (σ .cwd).isSome = true ∧ (σ .root).isSome = true ∧
      Safe k₁ σ r fun f => .idle (σ.count f)
  | .die, _, _, st => ∀ f, st f = .idle 0
  | .wild, _, _, st => ∀ f, (st f).Quiet

section Scan

variable {c : Code} {σ : Slots} {r v : BitVec 16} {st : Stances} {f g : Filp} {a : Stance}

theorem held_of (h : (update st g a f).held = true) (ha : a.held = (st g).held) :
    (st f).held = true := by
  rwa [of_update Stance.held fun _ => ha] at h

theorem Stance.Quiet.not_pending {test : Bool} (h : a.Quiet) : a.part.pending test = false := by
  rcases h.2 with h | h | h <;> rw [h] <;> rfl

theorem pending_other {test : Bool} (hp : (st f).part.pending test = true) (hg : g ≠ f) :
    (update st g a f).part.pending test = true := by
  rw [update_of_ne (Ne.symm hg)]
  exact hp

theorem pending_held {test b : Bool} (hp : (st f).part.pending test = true) :
    (update st g { st g with held := b } f).part.pending test = true := by
  rw [of_update Stance.part (by intro; rfl)]
  exact hp

/-- A process that has loaded a count will store it, and one that has decremented it will test
    it. The induction is over the code; a case about another entry changes nothing. -/
theorem Safe.before {test : Bool} (h : Safe c σ r st) (hp : (st f).part.pending test = true) :
    c.before test f = true := by
  induction c generalizing σ r st with
  | done => simp [h.1 f, Part.pending] at hp
  | lockFilp g k ih => exact ih h.2.2 (pending_held hp)
  | unlockFilp g k ih => exact ih h.2 (pending_held hp)
  | load g k ih =>
    have hg : g ≠ f := by
      rintro rfl
      rcases h with ⟨h, -⟩ | ⟨h, -⟩ <;> simp [h, Part.pending] at hp
    simp only [Code.before, ne_eq, hg, not_false_eq_true, decide_true, Bool.true_and]
    rcases h with ⟨-, -, h⟩ | ⟨-, h⟩
    · exact ih (h 0) (pending_other hp hg)
    · exact ih h (pending_other hp hg)
  | store g up k ih =>
    by_cases hg : g = f
    · subst hg
      cases test with
      | false => simp [Code.before]
      | true =>
        cases up with
        | false => simp [h.1, Part.pending] at hp
        | true => rcases h with ⟨h, -⟩ | ⟨h, -⟩ <;> simp [h, Part.pending] at hp
    · simp only [Code.before, hg, decide_false, Bool.and_false, Bool.false_or]
      cases up with
      | false => exact ih h.2.2.2 (pending_other hp hg)
      | true =>
        rcases h with ⟨-, h⟩ | ⟨-, -, h⟩
        · exact ih h (pending_other hp hg)
        · exact ih h (pending_other hp hg)
  | init g k ih =>
    have hg : g ≠ f := by
      rintro rfl
      rcases h.1 with h | h | h <;> simp [h, Part.pending] at hp
    exact ih h.2 (pending_other hp hg)
  | ifZero g k₁ k₂ ih₁ ih₂ =>
    by_cases hg : g = f
    · subst hg
      cases test with
      | true => simp [Code.before]
      | false => rcases h with ⟨b, h, -⟩ | ⟨⟨b, h⟩ | h, -⟩ <;> simp [h, Part.pending] at hp
    · rcases h with ⟨b, -, -, h₂⟩ | ⟨-, h₁⟩
      · simp [Code.before, ih₂ h₂ (pending_other hp hg)]
      · simp [Code.before, ih₁ h₁ hp]
  | close g k ih =>
    have hg : g ≠ f := by
      rintro rfl
      simp [h.1, Part.pending] at hp
    exact ih h.2 (pending_other hp hg)
  | putfilp g k ih =>
    have hg : g ≠ f := by
      rintro rfl
      rcases h.2.1 with h | h | h <;> simp [h, Part.pending] at hp
    exact ih h.2.2 (pending_other hp hg)
  | set a o k ih => exact ih h hp
  | getfilp k => simp [(h.1 f).not_pending] at hp
  | op g k₁ k₂ => simp [(h.1 f).not_pending] at hp
  | namei g k₁ k₂ => simp [(h.1 f).not_pending] at hp
  | spawn k₁ k₂ => simp [h.1 f, Part.pending] at hp
  | die => simp [h f, Part.pending] at hp
  | wild => simp [(h f).not_pending] at hp

theorem Safe.held (h : Safe c σ r st) (hl : c.inLock f = true) : (st f).held = true := by
  induction c generalizing σ r st with
  | lockFilp g k ih =>
    simp only [Code.inLock, ne_eq, decide_not, and_eq_true, not_eq_true',
      decide_eq_false_iff_not] at hl
    rw [← of_update Stance.held fun he => absurd he hl.1]
    exact ih h.2.2 hl.2
  | unlockFilp g k ih =>
    simp only [Code.inLock, or_eq_true, decide_eq_true_eq] at hl
    by_cases hg : g = f
    · exact hg ▸ h.1
    · rw [← of_update Stance.held fun he => absurd he hg]
      exact ih h.2 (hl.resolve_left hg)
  | load g k ih =>
    rcases h with ⟨-, -, h⟩ | ⟨-, h⟩
    · exact held_of (ih (h 0) hl) rfl
    · exact held_of (ih h hl) rfl
  | store g up k ih =>
    cases up with
    | false => exact held_of (ih h.2.2.2 hl) rfl
    | true =>
      rcases h with ⟨-, h⟩ | ⟨-, -, h⟩
      · exact held_of (ih h hl) rfl
      · exact held_of (ih h hl) rfl
  | init g k ih => exact held_of (ih h.2 hl) rfl
  | ifZero g k₁ k₂ ih₁ ih₂ =>
    simp only [Code.inLock, and_eq_true] at hl
    rcases h with ⟨b, -, -, h₂⟩ | ⟨-, h₁⟩
    · exact held_of (ih₂ h₂ hl.2) rfl
    · exact ih₁ h₁ hl.1
  | close g k ih => exact held_of (ih h.2 hl) rfl
  | putfilp g k ih => exact held_of (ih h.2.2 hl) rfl
  | set a o k ih => exact ih h hl
  | done | getfilp | op | namei | spawn | die | wild => cases hl

end Scan

/-! ## 3. One entry -/

variable {π : Type} [DecidableEq π] [Fintype π]

/-- Nobody knows the entry. -/
structure Free (e : Entry π) (st : π → Stance) : Prop where
  inuse : e.inuse = false
  lock : e.lock = none
  zeros : e.zeros ≤ 1
  closes : e.closes = e.zeros
  others : ∀ q, st q = .idle 0

/-- The entry is new, and only one process knows it. -/
structure Fresh (p : π) (e : Entry π) (st : π → Stance) : Prop where
  inuse : e.inuse = true
  lock : e.lock = none
  zeros : e.zeros = 0
  closes : e.closes = 0
  own : st p = ⟨0, .raw, false⟩ ∨
    (st p = ⟨0, .zeroed, false⟩ ∨ st p = ⟨0, .loaded, false⟩) ∧ e.ffCount = 0
  others : ∀ q, q ≠ p → st q = .idle 0

/-- The count is the number of references. At most one process has loaded it, and at most one
    has decremented it and not tested it. -/
structure Live (e : Entry π) (st : π → Stance) : Prop where
  inuse : e.inuse = true
  lock : ∀ p, e.lock = some p ↔ (st p).held = true
  zeros : e.zeros = 0
  closes : e.closes = 0
  pos : 0 < e.ffCount.toNat
  sum : e.ffCount.toNat = ∑ p, (st p).refs
  part : ∀ p, (st p).part = .none ∨ (st p).part = .rmw e.ffCount ∧ 1 ≤ (st p).refs ∨
    ∃ again, (st p).part = .dropped again
  one : ∀ p q test, (st p).part.pending test = true → (st q).part.pending test = true → p = q

/-- The count is zero and one process is about to give the entry back. -/
structure Dying (p : π) (e : Entry π) (st : π → Stance) : Prop where
  inuse : e.inuse = true
  lock : e.lock = if (st p).held then some p else none
  zeros : e.zeros = 1
  count : e.ffCount = 0
  refs : (st p).refs = 0
  own : (st p).part = .dropped false ∧ e.closes = 0 ∨ ∃ b, (st p).part = .last b ∧ e.closes = b.toNat
  others : ∀ q, q ≠ p → st q = .idle 0

/-- **The stances that the processes can have to an entry.** -/
inductive EntryOk (e : Entry π) (st : π → Stance) : Prop where
  | free (h : Free e st)
  | fresh (p : π) (h : Fresh p e st)
  | live (h : Live e st)
  | dying (p : π) (h : Dying p e st)

section Entry

variable {e e' : Entry π} {st : π → Stance} {p : π} {v : BitVec 16} {a : Stance}

theorem sum_update (st : π → Stance) (p : π) (a : Stance) :
    ∑ q, (update st p a q).refs + (st p).refs = ∑ q, (st q).refs + a.refs := by
  rw [← Finset.add_sum_erase _ _ (Finset.mem_univ p), ← Finset.add_sum_erase _ (fun q => (st q).refs)
    (Finset.mem_univ p), update_self]
  have hrest : ∑ q ∈ Finset.univ.erase p, (update st p a q).refs =
      ∑ q ∈ Finset.univ.erase p, (st q).refs :=
    Finset.sum_congr rfl fun q hq => by rw [update_of_ne (Finset.ne_of_mem_erase hq)]
  omega

/-- If one process has all references the others have none. -/
theorem Live.others_zero (h : Live e st) (hr : (st p).refs = e.ffCount.toNat) :
    ∀ q, q ≠ p → (st q).refs = 0 := by
  have hsum := h.sum
  rw [← Finset.add_sum_erase _ _ (Finset.mem_univ p)] at hsum
  have hzero : ∑ q ∈ Finset.univ.erase p, (st q).refs = 0 := by omega
  intro q hq
  exact Finset.sum_eq_zero_iff.mp hzero q (Finset.mem_erase.mpr ⟨hq, Finset.mem_univ q⟩)

namespace EntryOk

variable (h : EntryOk e st)
include h

/-- What a process knows of an entry: nothing, or that it is its own, in use, or about to be given
    back by it. -/
theorem known (p : π) :
    st p = .idle 0 ∨ Fresh p e st ∨ Live e st ∨ Dying p e st := by
  cases h with
  | free h => exact .inl (h.others p)
  | fresh p' h =>
    by_cases hpp : p = p'
    · exact .inr (.inl (hpp ▸ h))
    · exact .inl (h.others p hpp)
  | live h => exact .inr (.inr (.inl h))
  | dying p' h =>
    by_cases hpp : p = p'
    · exact .inr (.inr (.inr (hpp ▸ h)))
    · exact .inl (h.others p hpp)

/-- A process that has a reference is one of those that are counted. -/
theorem live_of_refs (hr : 1 ≤ (st p).refs) : Live e st := by
  rcases h.known p with hi | h | h | h
  · simp [hi] at hr
  · rcases h.own with hp | ⟨hp | hp, -⟩ <;> simp [hp] at hr
  · exact h
  · have := h.refs
    omega

/-- **What a process is doing with an entry tells what the entry is.** -/
theorem of_part (p : π) : match (st p).part with
    | .none => True
    | .rmw v => Live e st ∧ v = e.ffCount
    | .dropped again => Live e st ∨ Dying p e st ∧ again = false ∧ e.closes = 0
    | .last b => Dying p e st ∧ e.closes = b.toNat
    | .raw => Fresh p e st
    | .zeroed | .loaded => Fresh p e st ∧ e.ffCount = 0 := by
  rcases h.known p with hi | h | h | h
  · simp [hi]
  · rcases h.own with ho | ⟨ho | ho, hc⟩
    · simpa [ho] using h
    · simpa [ho] using ⟨h, hc⟩
    · simpa [ho] using ⟨h, hc⟩
  · rcases h.part p with hp | ⟨hp, -⟩ | ⟨b, hp⟩
    · simp [hp]
    · simpa [hp] using h
    · simpa [hp] using .inl h
  · rcases h.own with ⟨hp, hc⟩ | ⟨b, hp, hc⟩
    · simpa [hp] using .inr ⟨h, hc⟩
    · simpa [hp] using ⟨h, hc⟩

theorem of_fresh
    (hp : (st p).part = .raw ∨ (st p).part = .zeroed ∨ (st p).part = .loaded) : Fresh p e st := by
  have h := h.of_part p
  rcases hp with hp | hp | hp <;> rw [hp] at h
  · exact h
  · exact h.1
  · exact h.1

theorem of_last {b : Bool} (hp : (st p).part = .last b) :
    Dying p e st ∧ e.closes = b.toNat := by
  have h := h.of_part p
  rwa [hp] at h

theorem of_dropped {again : Bool} (hp : (st p).part = .dropped again) :
    Live e st ∨ Dying p e st ∧ again = false ∧ e.closes = 0 := by
  have h := h.of_part p
  rwa [hp] at h

end EntryOk

/-- **One stance changes** while the entry stays in use, and the count with it. -/
theorem Live.set (h : Live e st) (hu : e'.inuse = true) (hz : e'.zeros = 0) (hc : e'.closes = 0)
    (hpos : 0 < e'.ffCount.toNat)
    (hcount : e'.ffCount.toNat + (st p).refs = e.ffCount.toNat + a.refs)
    (hlock : ∀ q, e'.lock = some q ↔ (update st p a q).held = true)
    (hpart : a.part = .none ∨ a.part = .rmw e'.ffCount ∧ 1 ≤ a.refs ∨
      ∃ again, a.part = .dropped again)
    (hsame : e'.ffCount = e.ffCount ∨ ∀ q, q ≠ p → (st q).part.pending false = false)
    (hone : ∀ q, q ≠ p → ∀ test, a.part.pending test = true → (st q).part.pending test = false) :
    Live e' (update st p a) where
  inuse := hu
  lock := hlock
  zeros := hz
  closes := hc
  pos := hpos
  sum := by
    have := sum_update st p a
    have := h.sum
    omega
  part q := by
    by_cases hq : q = p
    · subst hq
      rwa [update_self]
    rw [update_of_ne hq]
    rcases h.part q with hn | ⟨hr, hrefs⟩ | hd
    · exact .inl hn
    · rcases hsame with hs | hs
      · exact .inr (.inl ⟨hs ▸ hr, hrefs⟩)
      · have := hs q hq
        simp [hr, Part.pending] at this
    · exact .inr (.inr hd)
  one q q' test hv hw := by
    by_cases hq : q = p
    · subst hq
      by_cases hq' : q' = q
      · exact hq'.symm
      rw [update_self] at hv
      rw [update_of_ne hq', hone q' hq' test hv] at hw
      cases hw
    · by_cases hq' : q' = p
      · subst hq'
        rw [update_self] at hw
        rw [update_of_ne hq, hone q hq test hw] at hv
        cases hv
      · rw [update_of_ne hq] at hv
        rw [update_of_ne hq'] at hw
        exact h.one q q' test hv hw

omit [DecidableEq π] in
/-- At most one process is before a store, or a test. -/
theorem Live.alone {test : Bool} (h : Live e st) (hp : (st p).part.pending test = true) :
    ∀ q, q ≠ p → (st q).part.pending test = false := by
  intro q hq
  by_contra hw
  exact hq (h.one q p test (by simpa using hw) hp)

omit [Fintype π] in
theorem others_update (h : ∀ q, q ≠ p → st q = .idle 0) :
    ∀ q, q ≠ p → update st p a q = .idle 0 := by
  intro q hq
  rw [update_of_ne hq]
  exact h q hq

theorem Live.lock_update (h : Live e st) (ha : a.held = (st p).held) :
    ∀ q, e.lock = some q ↔ (update st p a q).held = true := by
  intro q
  rw [h.lock q]
  by_cases hq : q = p
  · subst hq
    rw [update_self, ha]
  · rw [update_of_ne hq]

/-- The lock of an entry in use is taken, or given back, by a process that nobody else keeps
    from it. -/
theorem Live.setHeld (h : Live e st) (b : Bool) (hlock : ∀ q, q ≠ p → e.lock ≠ some q) :
    Live { e with lock := if b then some p else none }
      (update st p { st p with held := b }) := by
  refine h.set h.inuse h.zeros h.closes h.pos rfl (fun q => ?_) (h.part p) (.inl rfl)
    fun q hq test hv => h.alone hv q hq
  by_cases hq : q = p
  · subst hq
    cases b <;> simp
  · rw [update_of_ne hq, ← h.lock q]
    cases b <;> simp [Ne.symm hq, hlock q hq]

namespace EntryOk

section

variable (h : EntryOk e st)
include h

theorem lockFilp (hlock : e.lock = none)
    (hr : 1 ≤ (st p).refs ∨ ∃ b, (st p).part = .last b) :
    EntryOk { e with lock := some p } (update st p { st p with held := true }) := by
  rcases hr with hr | ⟨b, hb⟩
  · exact .live ((h.live_of_refs hr).setHeld true (by simp [hlock]))
  obtain ⟨h, hc⟩ := h.of_last hb
  exact .dying p ⟨h.inuse, by simp, h.zeros, h.count, by simpa using h.refs,
    .inr ⟨b, by simpa using hb, hc⟩, others_update h.others⟩

theorem unlockFilp (hh : (st p).held = true) :
    e.lock = some p ∧
      EntryOk { e with lock := none } (update st p { st p with held := false }) := by
  obtain h | h : Live e st ∨ Dying p e st := by
    rcases h.known p with hi | h | h
    · simp [hi] at hh
    · rcases h.own with h | ⟨h | h, -⟩ <;> simp [h] at hh
    · exact h
  · have hlock : e.lock = some p := (h.lock p).mpr hh
    exact ⟨hlock, .live (h.setHeld false fun q hq => by simp [hlock, Ne.symm hq])⟩
  refine ⟨by rw [h.lock, if_pos hh], .dying p ⟨h.inuse, by simp, h.zeros, h.count, ?_, ?_,
    others_update h.others⟩⟩
  · simpa using h.refs
  · simpa using h.own

theorem load (hr : 1 ≤ (st p).refs)
    (hnone : ∀ q, q ≠ p → (st q).part.pending false = false) :
    EntryOk e (update st p { st p with part := .rmw e.ffCount }) := by
  have h := h.live_of_refs hr
  refine .live (h.set h.inuse h.zeros h.closes h.pos rfl (h.lock_update rfl)
    (.inr (.inl ⟨rfl, hr⟩)) (.inl rfl) fun q hq test hv => ?_)
  cases test with
  | true => cases hv
  | false => exact hnone q hq

/-- A process that has loaded the count is one of those that are counted, and no other has. -/
theorem of_rmw (hp : (st p).part = .rmw v) :
    Live e st ∧ v = e.ffCount ∧ ∀ q, q ≠ p → (st q).part.pending false = false := by
  have h := h.of_part p
  rw [hp] at h
  exact ⟨h.1, h.2, h.1.alone (by rw [hp]; rfl)⟩

theorem storeUp (hp : (st p).part = .rmw v) (hmax : v ≠ 0xffff) :
    EntryOk { e with ffCount := v + 1, zeros := e.zeros + 0 }
      (update st p { st p with refs := (st p).refs + 1, part := .none }) := by
  obtain ⟨h, rfl, hnone⟩ := h.of_rmw hp
  have hadd : (e.ffCount + 1).toNat = e.ffCount.toNat + 1 := by
    have : e.ffCount.toNat ≠ 0xffff := fun hn => hmax (BitVec.eq_of_toNat_eq hn)
    have : (1 : BitVec 16).toNat = 1 := rfl
    rw [BitVec.toNat_add]
    omega
  refine .live (h.set h.inuse h.zeros h.closes ?_ ?_ (h.lock_update rfl) (.inl rfl)
    (.inr hnone) fun q hq test hv => ?_)
  · change 0 < (e.ffCount + 1).toNat
    omega
  · change (e.ffCount + 1).toNat + _ = _ + ((st p).refs + 1)
    omega
  · cases test <;> cases hv

/-- A store that decrements the count, under the lock and if nobody else has decremented it and
    not tested it. -/
theorem storeDown (hp : (st p).part = .rmw v) (hheld : (st p).held = true)
    (hr : 1 ≤ (st p).refs) (hnone : ∀ q, q ≠ p → (st q).part.pending true = false) :
    EntryOk { e with ffCount := v - 1, zeros := e.zeros + if v - 1 = 0 then 1 else 0 }
      (update st p { st p with refs := (st p).refs - 1, part := .dropped false }) := by
  obtain ⟨h, rfl, hrmw⟩ := h.of_rmw hp
  have hsub : (e.ffCount - 1).toNat = e.ffCount.toNat - 1 := by
    have := h.pos
    have := e.ffCount.isLt
    have : (1 : BitVec 16).toNat = 1 := rfl
    rw [BitVec.toNat_sub]
    omega
  have hle : (st p).refs ≤ e.ffCount.toNat := by
    have hsum : _ + (st p).refs = _ + 0 := sum_update st p (.idle 0)
    have := h.sum
    omega
  by_cases hzero : e.ffCount - 1 = 0
  · have hone : e.ffCount.toNat = 1 := by
      have hnat : (e.ffCount - 1).toNat = 0 := congrArg BitVec.toNat hzero
      have := h.pos
      omega
    have hothers := h.others_zero (p := p) (by omega)
    refine .dying p ⟨h.inuse, ?_, ?_, hzero, ?_, .inl ⟨by simp, h.closes⟩, fun q hq => ?_⟩
    · simpa [hheld] using (h.lock p).mpr hheld
    · change e.zeros + (if e.ffCount - 1 = 0 then 1 else 0) = 1
      rw [if_pos hzero, h.zeros]
    · simp only [update_self]
      omega
    rw [update_of_ne hq]
    have hpart : (st q).part = .none := by
      rcases h.part q with hn | ⟨-, hrefs⟩ | ⟨b, hd⟩
      · exact hn
      · exact absurd (hothers q hq) (by omega)
      · have := hnone q hq
        simp [hd, Part.pending] at this
    have hfree : (st q).held = false := by
      by_contra hh
      have hq' := (h.lock q).mpr (by simpa using hh)
      exact hq (Option.some.inj (hq'.symm.trans ((h.lock p).mpr hheld)))
    cases hst : st q with
    | mk refs part held =>
      have := hothers q hq
      simp_all
  · have hne : e.ffCount.toNat - 1 ≠ 0 := fun hn =>
      hzero (BitVec.eq_of_toNat_eq (by rw [hsub, hn]; rfl))
    refine .live (h.set h.inuse ?_ h.closes ?_ ?_ (h.lock_update rfl)
      (.inr (.inr ⟨false, rfl⟩)) (.inr hrmw) fun q hq test hv => ?_)
    · change e.zeros + (if e.ffCount - 1 = 0 then 1 else 0) = 0
      rw [if_neg hzero, h.zeros]
    · change 0 < (e.ffCount - 1).toNat
      omega
    · change (e.ffCount - 1).toNat + _ = _ + ((st p).refs - 1)
      omega
    cases test with
    | false => cases hv
    | true => exact hnone q hq

/-- A test of a count that the process has decremented: zero is seen by the first one. -/
theorem testZero {again : Bool} (hp : (st p).part = .dropped again)
    (hc : e.ffCount = 0) :
    again = false ∧ EntryOk e (update st p { st p with part := .last false }) := by
  rcases h.of_dropped hp with h | ⟨h, hagain, hcl⟩
  · have := h.pos
    rw [hc] at this
    cases this
  exact ⟨hagain, .dying p ⟨h.inuse, by simpa using h.lock, h.zeros, h.count, by simpa using h.refs,
    .inr ⟨false, by simp, hcl⟩, others_update h.others⟩⟩

/-- A test that does not find zero; another one may follow. -/
theorem testMore {again : Bool} (hp : (st p).part = .dropped again)
    (hc : e.ffCount ≠ 0) (b : Bool) :
    EntryOk e (update st p { st p with part := if b then .dropped true else .none }) := by
  rcases h.of_dropped hp with h | ⟨h, -⟩
  · refine .live (h.set h.inuse h.zeros h.closes h.pos rfl (h.lock_update rfl) ?_ (.inl rfl)
      fun q hq test hv => ?_)
    · cases b
      · exact .inl rfl
      · exact .inr (.inr ⟨true, rfl⟩)
    cases test with
    | true => exact h.alone (by rw [hp]; rfl) q hq
    | false => cases b <;> cases hv
  · exact absurd h.count hc

theorem close (hp : (st p).part = .last false) :
    EntryOk { e with closes := e.closes + 1 }
      (update st p { st p with part := .last true }) := by
  obtain ⟨h, hc⟩ := h.of_last hp
  exact .dying p ⟨h.inuse, by simpa using h.lock, h.zeros, h.count, by simpa using h.refs,
    .inr ⟨true, by simp, by simp [hc]⟩, others_update h.others⟩

end

omit [Fintype π] in
theorem update_idle (h : ∀ q, q ≠ p → st q = .idle 0) (ha : a = .idle 0) :
    ∀ q, update st p a q = .idle 0 := by
  intro q
  by_cases hq : q = p
  · subst hq
    rw [update_self, ha]
  · rw [update_of_ne hq, h q hq]

variable (h : EntryOk e st)
include h

theorem putfilp (hh : (st p).held = false)
    (hp : (st p).part = .last true ∨ (st p).part = .raw ∨ (st p).part = .zeroed) :
    EntryOk { e with inuse := false } (update st p { st p with part := .none }) := by
  rcases hp with hp | hp
  · obtain ⟨h, hc⟩ := h.of_last hp
    refine .free ⟨rfl, ?_, by simp [h.zeros], by simp [hc, h.zeros], update_idle h.others ?_⟩
    · simpa [hh] using h.lock
    · simp [h.refs, hh]
  · have h := h.of_fresh (hp.imp_right .inl)
    refine .free ⟨rfl, h.lock, by simp [h.zeros], by simp [h.closes, h.zeros],
      update_idle h.others ?_⟩
    rcases h.own with ho | ⟨ho | ho, -⟩ <;> simp [ho]

theorem getfilp (hu : e.inuse = false) :
    st p = .idle 0 ∧ EntryOk ⟨true, 11711, none, 0, 0⟩ (update st p ⟨0, .raw, false⟩) := by
  have h : Free e st := by
    cases h with
    | free h => exact h
    | fresh p' h => simp [h.inuse] at hu
    | live h => simp [h.inuse] at hu
    | dying p' h => simp [h.inuse] at hu
  exact ⟨h.others p, .fresh p ⟨rfl, rfl, rfl, rfl, .inl (by simp),
    others_update fun q _ => h.others q⟩⟩

theorem ownCount
    (hp : (st p).part = .raw ∨ (st p).part = .zeroed ∨ (st p).part = .loaded) {b : Part}
    (hb : b = .raw ∨ (b = .zeroed ∨ b = .loaded) ∧ v = 0) :
    EntryOk { e with ffCount := v } (update st p { st p with part := b }) := by
  have h := h.of_fresh hp
  have hst : st p = ⟨0, (st p).part, false⟩ := by
    rcases h.own with ho | ⟨ho | ho, -⟩ <;> rw [ho]
  refine .fresh p ⟨h.inuse, h.lock, h.zeros, h.closes, ?_, others_update h.others⟩
  rw [update_self, hst]
  rcases hb with rfl | ⟨rfl | rfl, rfl⟩
  · exact .inl rfl
  · exact .inr ⟨.inl rfl, rfl⟩
  · exact .inr ⟨.inr rfl, rfl⟩

theorem zeroed_count (hp : (st p).part = .zeroed ∨ (st p).part = .loaded) :
    e.ffCount = 0 := by
  have h := h.of_part p
  rcases hp with hp | hp <;> rw [hp] at h <;> exact h.2

theorem storeFirst (hp : (st p).part = .loaded) :
    EntryOk { e with ffCount := 0 + 1, zeros := e.zeros + 0 }
      (update st p { st p with refs := 1, part := .none }) := by
  have hf := h.of_fresh (.inr (.inr hp))
  have hst : st p = ⟨0, .loaded, false⟩ := by
    rcases hf.own with ho | ⟨ho | ho, -⟩ <;> simp [ho] at hp ⊢
  have hpart : ∀ q, (update st p { st p with refs := 1, part := .none } q).part = .none ∧
      (update st p { st p with refs := 1, part := .none } q).held = false := by
    intro q
    by_cases hq : q = p
    · subst hq
      simp [hst]
    · simp [update_of_ne hq, hf.others q hq]
  refine .live ⟨hf.inuse, fun q => ?_, hf.zeros, hf.closes, by simp, ?_, fun q => .inl (hpart q).1,
    fun q q' test hv => ?_⟩
  · simp [(hpart q).2, hf.lock]
  · have hsum := sum_update st p { st p with refs := 1, part := .none }
    have hzero : ∑ q, (st q).refs = 0 := Finset.sum_eq_zero fun q _ => by
      by_cases hq : q = p
      · rw [hq, hst]
      · rw [hf.others q hq]
    rw [hst] at hsum
    simp only [hzero] at hsum
    rw [hst]
    exact hsum.symm
  · rw [(hpart q).1] at hv
    cases test <;> cases hv

/-- Half of the references of a process go to another one. -/
theorem split {c : π} {n : Nat} (hne : p ≠ c) (hp : st p = .idle (2 * n))
    (hc : st c = .idle 0) :
    EntryOk e (update (update st c (.idle n)) p (.idle n)) := by
  by_cases hn : n = 0
  · subst hn
    rw [← hc, update_eq_self, hc, ← hp, update_eq_self]
    exact h
  have hpc : (update st c (.idle n)) p = .idle (2 * n) := by
    rw [update_of_ne hne, hp]
  have hsum : ∑ q, (update (update st c (.idle n)) p (.idle n) q).refs =
      ∑ q, (st q).refs := by
    have h₁ := sum_update (update st c (.idle n)) p (.idle n)
    have h₂ := sum_update st c (.idle n)
    rw [hpc] at h₁
    rw [hc] at h₂
    dsimp only at h₁ h₂
    omega
  have hsame : ∀ q, st q = update (update st c (.idle n)) p (.idle n) q ∨
      (st q).part = .none ∧ (st q).held = false ∧
        update (update st c (.idle n)) p (.idle n) q = .idle n := by
    intro q
    by_cases hqp : q = p
    · subst hqp
      exact .inr ⟨by rw [hp], by rw [hp], by simp⟩
    by_cases hqc : q = c
    · subst hqc
      exact .inr ⟨by rw [hc], by rw [hc], by simp [update_of_ne hqp]⟩
    · exact .inl (by rw [update_of_ne hqp, update_of_ne hqc])
  have h := h.live_of_refs (p := p) (by rw [hp]; dsimp only; omega)
  generalize update (update st c (.idle n)) p (.idle n) = st' at hsum hsame ⊢
  have hpart : ∀ q, (st' q).part = (st q).part ∧ (st' q).held = (st q).held := by
    intro q
    rcases hsame q with hq | ⟨h₁, h₂, hq⟩
    · rw [hq]
      exact ⟨rfl, rfl⟩
    · rw [hq, h₁, h₂]
      exact ⟨rfl, rfl⟩
  refine .live ⟨h.inuse, fun q => ?_, h.zeros, h.closes, h.pos, by rw [hsum, h.sum], fun q => ?_,
    fun q q' test hv hw => ?_⟩
  · rw [(hpart q).2, h.lock q]
  · rcases hsame q with hq | ⟨-, -, hq⟩
    · rw [← hq]
      exact h.part q
    · exact .inl (by rw [hq])
  · rw [(hpart q).1] at hv
    rw [(hpart q').1] at hw
    exact h.one q q' test hv hw

end EntryOk

end Entry

/-! ## 4. Steps -/

/-- **The invariant**: the processes have stances in which they may run what is left of their
    calls, and that fit together at every entry. -/
structure Accounted (s : Files π) (st : π → Stances) : Prop where
  safe : ∀ p, (s.procs p).live = true →
    Safe (s.procs p).code (s.procs p).slots (s.procs p).reg (st p)
  dead : ∀ p, (s.procs p).live = false → ∀ f, st p f = .idle 0
  entries : ∀ f, EntryOk (s.file f) fun p => st p f

/-- No other process is before a store (or a test) of the count, except under the lock that both
    would have. -/
def Files.Apart (s : Files π) (p : π) (f : Filp) (test : Bool) : Prop :=
  ∀ q, q ≠ p → (s.procs q).live = true → (s.procs q).code.before test f = true →
    (s.procs p).code.inLock f = true ∧ (s.procs q).code.inLock f = true

/-- The number behind the vector is not used as a descriptor. -/
def Call.Ok : Call → Prop
  | .accept fd _ | .dup fd | .dupfd fd _ | .close fd | .fchdir fd _ => fd ≠ nrOpen
  | .dup2 fd1 fd2 => fd1 ≠ nrOpen ∧ fd2 ≠ nrOpen
  | .socket | .chdir _ | .chroot _ | .fork | .exit => True

/-- What is asked of a call or a step: an unlocked change of a count does not overlap another
    one, nobody decrements a count that another process is about to test, a count is not
    incremented beyond its range, an operation that fails leaves the count zero, and a fork that
    has counted does not fail. -/
def Act.Ok (s : Files π) : Act π → Prop
  | .call _ c => c.Ok
  | .step p ch =>
    match (s.procs p).code with
    | .load f _ => s.Apart p f false
    | .store f up _ => if up then (s.procs p).reg ≠ 0xffff else s.Apart p f true
    | .op _ _ _ => ch.ok = true ∨ ch.count = 0
    | .spawn _ _ => ch.ok = true
    | _ => True

section Steps

variable {s s' : Files π} {st : π → Stances} {p : π} {ch : Choice π} {f : Filp}

namespace Accounted

/-- Two processes that are both before a store, or a test, of a count would both have its lock. -/
theorem apart {test : Bool} (h : Accounted s st) (hp : (s.procs p).live = true)
    (ha : s.Apart p f test) : ∀ q, q ≠ p → (st q f).part.pending test = false := by
  intro q hq
  by_contra hv
  have hv : (st q f).part.pending test = true := by simpa using hv
  have hlive : (s.procs q).live = true := by
    by_contra hd
    rw [h.dead q (by simpa using hd) f] at hv
    cases hv
  obtain ⟨hlp, hlq⟩ := ha q hq hlive ((h.safe q hlive).before hv)
  have hhp : (st p f).held = true := (h.safe p hp).held hlp
  have hhq : (st q f).held = true := (h.safe q hlive).held hlq
  have h₁ := ((h.entries f).unlockFilp (p := p) hhp).1
  have h₂ := ((h.entries f).unlockFilp (p := q) hhq).1
  exact hq (Option.some.inj (h₂.symm.trans h₁))

/-- What is asked of one process: `safe` and `dead`. -/
def ProcOk (q : Proc) (t : Stances) : Prop :=
  if q.live then Safe q.code q.slots q.reg t else ∀ f, t f = .idle 0

theorem ProcOk.of_safe {q : Proc} {t : Stances} (hq : q.live = true)
    (h : Safe q.code q.slots q.reg t) : ProcOk q t := by
  rw [ProcOk, if_pos hq]
  exact h

omit [DecidableEq π] in
theorem procOk (h : Accounted s st) (p : π) : ProcOk (s.procs p) (st p) := by
  cases hl : (s.procs p).live with
  | true => exact .of_safe hl (h.safe p hl)
  | false => simpa [ProcOk, hl] using h.dead p hl

omit [DecidableEq π] in
theorem of_procOk (hp : ∀ p, ProcOk (s.procs p) (st p))
    (he : ∀ f, EntryOk (s.file f) fun p => st p f) : Accounted s st where
  safe p hl := by simpa [ProcOk, hl] using hp p
  dead p hl := by simpa [ProcOk, hl] using hp p
  entries := he

omit [Fintype π] in
theorem procOk_update {procs : π → Proc} {q : Proc} {t : Stances}
    (h : ∀ p, ProcOk (procs p) (st p)) (hq : ProcOk q t) :
    ∀ p', ProcOk (update procs p q p') (update st p t p') := by
  intro p'
  by_cases hpp : p' = p
  · subst hpp
    simpa using hq
  · simpa [update_of_ne hpp] using h p'

omit [Fintype π] in
theorem stances_update (st : π → Stances) (p : π) (t : Stances) (f : Filp) :
    (fun q => update st p t q f) = update (fun q => st q f) p (t f) := by
  funext q
  exact Function.apply_update (fun _ (t : Stances) => t f) st p t q

variable (h : Accounted s st)
include h

theorem move {e : Entry π} {a : Stance} {q : Proc} (hq : q.live = true)
    (hsafe : Safe q.code q.slots q.reg (update (st p) f a))
    (he : EntryOk e (update (fun q => st q f) p a)) :
    Accounted ((s.setFile f e).setProc p q)
      (update st p (update (st p) f a)) := by
  refine of_procOk (procOk_update h.procOk (.of_safe hq hsafe)) fun g => ?_
  rw [stances_update]
  by_cases hg : g = f
  · subst hg
    simpa [Files.setProc, Files.setFile] using he
  · simpa [Files.setProc, Files.setFile, update_of_ne hg] using h.entries g

theorem turn {a : Stance} {q : Proc} (hq : q.live = true)
    (hsafe : Safe q.code q.slots q.reg (update (st p) f a))
    (he : EntryOk (s.file f) (update (fun q => st q f) p a)) :
    Accounted (s.setProc p q) (update st p (update (st p) f a)) := by
  have hs : s.setFile f (s.file f) = s := by simp [Files.setFile]
  have := h.move hq hsafe he
  rwa [hs] at this

theorem own {q : Proc} (hq : ProcOk q (st p)) :
    Accounted (s.setProc p q) st := by
  have hp := procOk_update (p := p) h.procOk hq
  rw [update_eq_self] at hp
  exact of_procOk hp h.entries

/-- A fork: the references that were counted for the child are the child's. -/
theorem spawn {k : Code} {c : π} (hp : (s.procs p).live = true)
    (hc : (s.procs c).live = false) (hst : ∀ f, st p f = .idle (2 * (s.procs p).slots.count f))
    (hdirs : ((s.procs p).slots .cwd).isSome = true ∧ ((s.procs p).slots .root).isSome = true)
    (hsafe : Safe k (s.procs p).slots (s.procs p).reg fun f => .idle ((s.procs p).slots.count f)) :
    ∃ st', Accounted ((s.setProc c { s.procs p with code := .done }).goto p k) st' := by
  have hne : p ≠ c := by
    rintro rfl
    simp [hp] at hc
  let child : Stances := fun f => .idle ((s.procs p).slots.count f)
  have hchild : ProcOk { s.procs p with code := .done } child := .of_safe hp ⟨fun _ => rfl, hdirs⟩
  refine ⟨_, of_procOk (procOk_update (t := child) (procOk_update h.procOk hchild) ?_) fun f => ?_⟩
  · simpa [ProcOk, Files.setProc, update_of_ne hne, hp] using hsafe
  · rw [stances_update, stances_update]
    exact (h.entries f).split hne (hst f) (h.dead c hc f)

/-- **One step.** -/
theorem step (hok : (Act.step p ch).Ok s) (heq : s.step p ch = some s') :
    ∃ st', Accounted s' st' := by
  unfold Files.step at heq
  dsimp only at heq
  split at heq
  · cases heq
  rename_i hlive
  have hlive : (s.procs p).live = true := by simpa using hlive
  have hsafe := h.safe p hlive
  simp only [Act.Ok] at hok
  generalize (s.procs p).code = c at heq hsafe hok
  cases c with dsimp only at heq hok
  | done | wild => cases heq
  | lockFilp f k =>
    split at heq
    · rename_i hlock
      cases heq
      obtain ⟨-, hr, hk⟩ := hsafe
      exact ⟨_, h.move hlive hk ((h.entries f).lockFilp hlock hr)⟩
    · cases heq
  | unlockFilp f k =>
    obtain ⟨hh, hk⟩ := hsafe
    obtain ⟨hlock, he⟩ := (h.entries f).unlockFilp hh
    rw [if_pos hlock] at heq
    cases heq
    exact ⟨_, h.move hlive hk he⟩
  | load f k =>
    cases heq
    rcases hsafe with ⟨-, hr, hk⟩ | ⟨hz, hk⟩
    · exact ⟨_, h.turn hlive (hk _) ((h.entries f).load hr (h.apart hlive hok))⟩
    have hcount := (h.entries f).zeroed_count (.inl hz)
    have he := (h.entries f).ownCount (v := 0) (.inr (.inl hz)) (.inr ⟨.inr rfl, rfl⟩)
    rw [← hcount] at he
    exact ⟨_, h.turn hlive (by rw [hcount]; exact hk) he⟩
  | store f up k =>
    cases heq
    cases up with
    | true =>
      rcases hsafe with ⟨hr, hk⟩ | ⟨hl, hreg, hk⟩
      · exact ⟨_, h.move hlive hk (by simpa using (h.entries f).storeUp hr (by simpa using hok))⟩
      have he := (h.entries f).storeFirst hl
      rw [← hreg] at he
      exact ⟨_, h.move hlive hk (by simpa using he)⟩
    | false =>
      obtain ⟨hr, hh, hrefs, hk⟩ := hsafe
      have hapart : s.Apart p f true := by simpa using hok
      have hnone := h.apart hlive hapart
      exact ⟨_, h.move hlive hk (by simpa using (h.entries f).storeDown hr hh hrefs hnone)⟩
  | init f k =>
    cases heq
    exact ⟨_, h.move hlive hsafe.2 ((h.entries f).ownCount hsafe.1 (.inr ⟨.inl rfl, rfl⟩))⟩
  | ifZero f k₁ k₂ =>
    cases heq
    by_cases hz : (s.file f).ffCount = 0
    · rw [if_pos hz]
      rcases hsafe with ⟨again, hd, hk₁, -⟩ | ⟨-, hk₁⟩
      · obtain ⟨hagain, he⟩ := (h.entries f).testZero hd hz
        exact ⟨_, h.turn hlive (hk₁ hagain) he⟩
      · exact ⟨_, h.own (.of_safe hlive hk₁)⟩
    · rw [if_neg hz]
      rcases hsafe with ⟨again, hd, -, hk₂⟩ | ⟨⟨b, hb⟩ | hb, -⟩
      · exact ⟨_, h.turn hlive hk₂ ((h.entries f).testMore hd hz _)⟩
      · exact absurd ((h.entries f).of_last hb).1.count hz
      · exact absurd ((h.entries f).zeroed_count (.inl hb)) hz
  | close f k =>
    cases heq
    exact ⟨_, h.move hlive hsafe.2 ((h.entries f).close hsafe.1)⟩
  | putfilp f k =>
    cases heq
    exact ⟨_, h.move hlive hsafe.2.2 ((h.entries f).putfilp hsafe.1 hsafe.2.1)⟩
  | set a o k =>
    cases heq
    exact ⟨_, h.own (.of_safe hlive hsafe)⟩
  | getfilp k =>
    split at heq
    · cases heq
      exact ⟨_, h.own (.of_safe hlive hsafe.2.1)⟩
    rename_i f hfree
    cases heq
    have hu : (s.file f).inuse = false := by
      have := List.find?_some hfree
      simp only [decide_eq_true_eq] at this
      exact this.2
    obtain ⟨hidle, he⟩ := (h.entries f).getfilp (p := p) hu
    exact ⟨_, h.move hlive (hsafe.2.2 f hidle) he⟩
  | op f k₁ k₂ =>
    cases heq
    obtain ⟨-, hpart, hk₁, hk₂⟩ := hsafe
    have hpart : (st p f).part = .raw ∨ (st p f).part = .zeroed ∨ (st p f).part = .loaded :=
      hpart.imp_right .inl
    cases hch : ch.ok with
    | true => exact ⟨_, h.move hlive hk₁ ((h.entries f).ownCount hpart (.inl rfl))⟩
    | false =>
      have hcount : ch.count = 0 := hok.resolve_left (by simp [hch])
      exact ⟨_, h.move hlive hk₂ ((h.entries f).ownCount hpart (.inr ⟨.inl rfl, hcount⟩))⟩
  | namei f k₁ k₂ =>
    cases heq
    obtain ⟨-, hpart, hk₁, hk₂⟩ := hsafe
    have hpart : (st p f).part = .raw ∨ (st p f).part = .zeroed ∨ (st p f).part = .loaded :=
      hpart.imp_right .inl
    cases hch : ch.ok with
    | true => exact ⟨_, h.move hlive hk₁ ((h.entries f).ownCount hpart (.inl rfl))⟩
    | false => exact ⟨_, h.move hlive hk₂ ((h.entries f).ownCount hpart (.inl rfl))⟩
  | spawn k₁ k₂ =>
    rw [if_pos hok] at heq
    split at heq
    · cases heq
    rename_i hc
    cases heq
    obtain ⟨hst, hcwd, hroot, hk⟩ := hsafe
    exact h.spawn hlive (by simpa using hc) hst ⟨hcwd, hroot⟩ hk
  | die =>
    cases heq
    exact ⟨st, h.own (fun f => hsafe f : ∀ f, st p f = .idle 0)⟩

end Accounted

end Steps

end Exokernel.Libos
