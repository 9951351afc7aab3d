import Mathlib
import Exokernel.Lib.Run

/-!
# The locks of ExOS

A lock has the number of the environment that holds it, and how often that one has taken it. The
environments make one access at a time, in any order, and may die anywhere.

**The compare-and-exchange is commented out of `prim_test_and_set`**, which returns 0 and stores
nothing. The lock stays free: whoever asks is told to have it, and giving it back fails.
-/
set_option autoImplicit false

namespace Exokernel.Libos

open Function

/-! ## 1. The code -/

/-- What `prim_test_and_set` returns, and what it leaves in `*dst`. -/
def primTestAndSet (dst _val _new : BitVec 32) : BitVec 32 × BitVec 32 := (0, dst)

/-- The next access of an environment: up to `deeper` in `exos_lock_try`, which
    `exos_lock_get_nb` calls if `nb`, up to `setDepth` in `exos_lock_get_nb`, and from `release` on
    in `exos_lock_release`. -/
inductive LockPc where
  | idle
  | enter (nb : Bool)
  | testAndSet (nb : Bool)
  | deeper
  | look (owner : BitVec 32)
  | grab (owner : BitVec 32)
  | setDepth
  | release
  | shallower
  | last
  | clearLock
  | clearDepth
  | failed

/-- The environment has nothing to do with the lock, or is about to get it. -/
@[simp] def LockPc.Asks : LockPc → Prop
  | .idle | .enter _ | .testAndSet _ | .deeper => True
  | _ => False

/-- `exos_lock_t`, and the environments: where they are, whether they live, and how many of their
    acquisitions they have not released. -/
structure Locks where
  lock : BitVec 32
  depth : BitVec 16
  pc : BitVec 32 → LockPc
  alive : BitVec 32 → Bool
  nest : BitVec 32 → Nat

/-- Releases are for what was acquired. -/
inductive LockEvent where
  | acquire (e : BitVec 32) (nb : Bool)
  | release (e : BitVec 32)
  | access (e : BitVec 32)
  | die (e : BitVec 32)

namespace Locks

/-- After `exos_lock_init`. -/
def init (alive : BitVec 32 → Bool) : Locks := ⟨0, 0, fun _ => .idle, alive, fun _ => 0⟩

def goto (s : Locks) (e : BitVec 32) (p : LockPc) : Locks := { s with pc := update s.pc e p }

def acquired (s : Locks) (e : BitVec 32) (depth : BitVec 16) : Locks :=
  { s with depth, nest := update s.nest e (s.nest e + 1) }.goto e .idle

/-- The next access of environment `e`. A live owner is waited for. -/
def next (s : Locks) (e : BitVec 32) : Locks :=
  match s.pc e with
  | .idle | .failed => s
  | .enter nb => s.goto e (if s.lock = e then .deeper else .testAndSet nb)
  | .testAndSet nb =>
    let (orig, lock) := primTestAndSet s.lock 0 e
    { s with lock }.goto e (if orig = 0 then .deeper else if nb then .look orig else .idle)
  | .deeper => s.acquired e (s.depth + 1)
  | .look owner => s.goto e (if s.alive owner then .enter true else .grab owner)
  | .grab owner =>
    let (orig, lock) := primTestAndSet s.lock owner e
    { s with lock }.goto e (if owner = orig then .setDepth else .enter true)
  | .setDepth => s.acquired e 1
  | .release => s.goto e (if s.lock = 0 ∨ s.depth = 0 ∨ s.lock ≠ e then .failed else .shallower)
  | .shallower =>
    { s with depth := s.depth - 1, nest := update s.nest e (s.nest e - 1) }.goto e .last
  | .last => s.goto e (if s.depth = 0 then .clearLock else .idle)
  | .clearLock => { s with lock := 0 }.goto e .clearDepth
  | .clearDepth => { s with depth := 0 }.goto e .idle

def exec (s : Locks) : LockEvent → Option Locks
  | .acquire e nb => if s.alive e ∧ s.pc e matches .idle then some (s.goto e (.enter nb)) else none
  | .release e =>
    if s.alive e ∧ s.pc e matches .idle ∧ 0 < s.nest e then some (s.goto e .release) else none
  | .access e => if s.alive e then some (s.next e) else none
  | .die e => some { s with alive := update s.alive e false }

/-! ## 2. Exclusion -/

/-- Of those that live one at most has acquired the lock and not released it, the lock has its
    number and its depth, and no assertion has failed. -/
structure Exclusive (s : Locks) : Prop where
  one : ∀ e f, s.alive e → s.alive f → 0 < s.nest e → 0 < s.nest f → e = f
  owner : ∀ e, s.alive e → 0 < s.nest e → s.lock = e ∧ s.depth.toNat = s.nest e
  asserts : ∀ e, s.pc e ≠ .failed

/-- The environment has just been told that it has the lock. -/
def Takes (s : Locks) : LockEvent → Prop
  | .access e => s.pc e = .deeper
  | _ => False

/-- Nobody has the lock; some ask for it. -/
structure Free (s : Locks) : Prop where
  zero : s.alive 0 = false
  lock : s.lock = 0
  nest : ∀ e, s.nest e = 0
  asks : ∀ e, (s.pc e).Asks

theorem Free.exclusive {s : Locks} (h : s.Free) : s.Exclusive where
  one e f _ _ he := absurd (h.nest e) (Nat.ne_of_gt he)
  owner e _ he := absurd (h.nest e) (Nat.ne_of_gt he)
  asserts e hfail := by simpa [hfail] using h.asks e

theorem Free.goto {s : Locks} {e : BitVec 32} {p : LockPc} (h : s.Free)
    (hp : p.Asks) : (s.goto e p).Free := by
  refine { h with asks := fun f => ?_ }
  by_cases hf : f = e
  · simpa [Locks.goto, hf] using hp
  · simpa [Locks.goto, hf] using h.asks f

theorem Free.exec {s t : Locks} {i : LockEvent} (h : s.Free) (hi : ¬s.Takes i)
    (ht : s.exec i = some t) : t.Free := by
  cases i with
  | acquire e nb =>
    obtain ⟨-, rfl⟩ : _ ∧ s.goto e (.enter nb) = t := by simpa [Locks.exec] using ht
    exact h.goto trivial
  | release e => simp [Locks.exec, h.nest] at ht
  | access e =>
    obtain ⟨-, rfl⟩ : _ ∧ s.next e = t := by simpa [Locks.exec] using ht
    unfold next
    cases hp : s.pc e with
    | idle => exact h
    | enter nb => exact h.goto (by split <;> trivial)
    | testAndSet nb => exact h.goto trivial
    | deeper => exact absurd hp hi
    | _ => exact absurd (h.asks e) (by simp [hp])
  | die e =>
    cases ht
    exact { h with zero := by simp only [update_apply, h.zero, ite_self] }

end Locks

/-- **A lock excludes until somebody takes it.** The one who takes it is not the owner that the lock
    names. -/
theorem exosLock_exclusive_iff (alive : BitVec 32 → Bool) (h0 : alive 0 = false) {s t : Locks}
    {i : LockEvent} (hrun : Run.Reaches (fun s i t => s.exec i = some t) (fun s i => ¬s.Takes i)
      (.init alive) s) (ht : s.exec i = some t) :
    s.Exclusive ∧ (t.Exclusive ↔ ¬s.Takes i) := by
  have h : s.Free := hrun.invariant (I := Locks.Free) ⟨h0, rfl, fun _ => rfl, fun _ => trivial⟩
    fun _ _ _ h hi ht => h.exec hi ht
  refine ⟨h.exclusive, fun hx hi => ?_, fun hi => (h.exec hi ht).exclusive⟩
  cases i with
  | access e =>
    obtain ⟨he, rfl⟩ : _ ∧ s.next e = t := by simpa [Locks.exec] using ht
    have hnext : s.next e = s.acquired e (s.depth + 1) := by
      rw [Locks.next, show s.pc e = .deeper from hi]
    rw [hnext] at hx
    have hlock : s.lock = e := (hx.owner e he (by simp [Locks.acquired, Locks.goto])).1
    rw [← hlock, h.lock, h.zero] at he
    cases he
  | _ => exact hi

/-- Two environments stand before the count, one in either function, and a third one asks. -/
theorem exosLock_exclusive_three : ∃ s : Locks, s.pc 1 = .deeper ∧ s.pc 2 = .deeper ∧
    s.Exclusive ∧ (s.goto 3 (.enter true)).Exclusive := by
  have h₀ : Run.Reaches (fun s i t => Locks.exec s i = some t) (fun s i => ¬s.Takes i)
    (.init (· ≠ 0)) (.init (· ≠ 0)) := .refl
  have h₁ := ((h₀.call (i := .acquire 1 true) id rfl).call (i := .access 1)
    (by intro h; cases h) rfl).call (i := .access 1) (by intro h; cases h) rfl
  have h₂ := ((h₁.call (i := .acquire 2 false) id rfl).call (i := .access 2)
    (by intro h; cases h) rfl).call (i := .access 2) (by intro h; cases h) rfl
  obtain ⟨hs, ht⟩ := exosLock_exclusive_iff (· ≠ 0) rfl (i := .acquire 3 true) h₂ rfl
  exact ⟨_, rfl, rfl, hs, ht.mpr id⟩

/-- Two environments have acquired the lock, and the first that releases it fails. -/
theorem exosLock_shared : ∃ s, Run.execAll Locks.exec [.acquire 1 true, .access 1, .access 1,
    .access 1, .acquire 2 true, .access 2, .access 2, .access 2, .release 1, .access 1]
    (.init (· ≠ 0)) = some s ∧ s.nest 1 = 1 ∧ s.nest 2 = 1 ∧ s.pc 1 = .failed :=
  ⟨_, rfl, rfl, rfl, rfl⟩

end Exokernel.Libos
