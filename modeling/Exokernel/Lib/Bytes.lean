import Mathlib.Data.BitVec
import Mathlib.Logic.Basic
import Mathlib.Tactic.Common

/-!
# Blocks of bytes — words in them, stores into them, and what a store leaves alone

A cache or a disk is a family of blocks, and code that works on it reads and writes words at
offsets that it has computed. `Store κ` is such a family, with any type `κ` of block names.

**Every store is a `blit`.** Storing a byte, a word, a name or a run of zeros all put some bytes
at consecutive offsets of one block, so there is one lemma on what they leave alone
(`blit_apart`), and from it one for each width of load. Words are little endian and need not be
aligned.
-/
set_option autoImplicit false

namespace Exokernel

open BitVec

/-- Blocks of bytes, by name and offset. -/
abbrev Store (κ : Type*) := κ → Nat → BitVec 8

namespace Store

variable {κ : Type*}

/-! ## 1. Loads -/

def ld16 (s : Store κ) (k : κ) (a : Nat) : BitVec 16 := s k (a + 1) ++ s k a

def ld32 (s : Store κ) (k : κ) (a : Nat) : BitVec 32 :=
  s k (a + 3) ++ s k (a + 2) ++ s k (a + 1) ++ s k a

/-! ## 2. Stores -/

section
variable [DecidableEq κ]

/-- Put `n` bytes at offset `a`. -/
def blit (s : Store κ) (k : κ) (a n : Nat) (src : Nat → BitVec 8) : Store κ :=
  fun k' i => if k' = k ∧ a ≤ i ∧ i < a + n then src (i - a) else s k' i

def st8 (s : Store κ) (k : κ) (a : Nat) (x : BitVec 8) : Store κ := s.blit k a 1 fun _ => x

def st16 (s : Store κ) (k : κ) (a : Nat) (x : BitVec 16) : Store κ :=
  s.blit k a 2 fun i => x.extractLsb' (8 * i) 8

def st32 (s : Store κ) (k : κ) (a : Nat) (x : BitVec 32) : Store κ :=
  s.blit k a 4 fun i => x.extractLsb' (8 * i) 8

/-- `bzero`. -/
def zero (s : Store κ) (k : κ) (a n : Nat) : Store κ := s.blit k a n fun _ => 0

end

/-! ## 3. What a store leaves alone -/

/-- Two ranges of bytes have no byte in common. -/
def Apart (k : κ) (a n : Nat) (k' : κ) (a' n' : Nat) : Prop :=
  k = k' → a + n ≤ a' ∨ a' + n' ≤ a

/-- The stores agree on a range of bytes. -/
def Same (s t : Store κ) (k : κ) (a n : Nat) : Prop :=
  ∀ i, a ≤ i → i < a + n → t k i = s k i

variable {s t u : Store κ} {k k' : κ} {a n a' n' : Nat} {src : Nat → BitVec 8}

theorem Apart.symm (h : Apart k a n k' a' n') : Apart k' a' n' k a n :=
  fun hk => (h hk.symm).symm

/-- Smaller ranges are still apart. -/
theorem Apart.mono {b m b' m' : Nat} (h : Apart k a n k' a' n') (hb : a ≤ b)
    (hm : b + m ≤ a + n) (hb' : a' ≤ b') (hm' : b' + m' ≤ a' + n') : Apart k b m k' b' m' := by
  intro hk
  have := h hk
  omega

theorem Same.byte (h : Same s t k a n) (hn : 0 < n) : t k a = s k a :=
  h a (Nat.le_refl a) (by omega)

theorem Same.ld16 (h : Same s t k a 2) : t.ld16 k a = s.ld16 k a := by
  unfold Store.ld16
  rw [h a (by omega) (by omega), h (a + 1) (by omega) (by omega)]

theorem Same.ld32 (h : Same s t k a 4) : t.ld32 k a = s.ld32 k a := by
  unfold Store.ld32
  rw [h a (by omega) (by omega), h (a + 1) (by omega) (by omega),
    h (a + 2) (by omega) (by omega), h (a + 3) (by omega) (by omega)]

variable [DecidableEq κ]

/-- A byte outside the range that is stored. -/
theorem blit_outside {i : Nat} (h : k' = k → i < a ∨ a + n ≤ i) :
    s.blit k a n src k' i = s k' i := by
  unfold blit
  rw [if_neg]
  rintro ⟨hk, hai, hin⟩
  have := h hk
  omega

/-- **The frame rule.** -/
theorem blit_apart (h : Apart k a n k' a' n') : Same s (s.blit k a n src) k' a' n' := by
  intro i hi hn
  refine blit_outside fun hk => ?_
  have := h hk.symm
  omega

theorem ld16_blit (h : Apart k a n k' a' 2) : (s.blit k a n src).ld16 k' a' = s.ld16 k' a' :=
  (blit_apart h).ld16

theorem ld32_blit (h : Apart k a n k' a' 4) : (s.blit k a n src).ld32 k' a' = s.ld32 k' a' :=
  (blit_apart h).ld32

/-- All that differs between the stores is in the places `P`. -/
def Touches (s t : Store κ) (P : κ → Nat → Prop) : Prop :=
  ∀ k a, ¬ P k a → t k a = s k a

section
omit [DecidableEq κ]
variable {P Q : κ → Nat → Prop}

theorem Touches.refl (s : Store κ) (P : κ → Nat → Prop) : Touches s s P := fun _ _ _ => rfl

theorem Touches.trans (h : Touches s t P) (h' : Touches t u P) : Touches s u P :=
  fun k a hp => (h' k a hp).trans (h k a hp)

theorem Touches.mono (h : Touches s t P) (hpq : ∀ k a, P k a → Q k a) : Touches s t Q :=
  fun k a hq => h k a fun hp => hq (hpq k a hp)

/-- A range that has none of the places is the same in both. -/
theorem Touches.same (h : Touches s t P) (hp : ∀ i, a ≤ i → i < a + n → ¬ P k i) :
    Same s t k a n := fun i hi hn => h k i (hp i hi hn)

end

theorem Touches.blit {P : κ → Nat → Prop} (h : Touches s t P)
    (hp : ∀ i, a ≤ i → i < a + n → P k i) : Touches s (t.blit k a n src) P := by
  intro k' i hi
  rw [blit_outside]
  · exact h k' i hi
  intro hk
  subst hk
  by_contra hout
  apply hi
  apply hp
  · omega
  · omega

/-! ## 4. What a store puts there -/

theorem blit_inside {i : Nat} (ha : a ≤ i) (hn : i < a + n) :
    s.blit k a n src k i = src (i - a) := by
  simp [blit, ha, hn]

@[simp] theorem st8_self (x : BitVec 8) : s.st8 k a x k a = x := by
  simp [st8, blit]

theorem st8_apply (x : BitVec 8) (i : Nat) :
    s.st8 k a x k' i = if k' = k ∧ i = a then x else s k' i := by
  unfold st8 blit
  have hi : (a ≤ i ∧ i < a + 1) ↔ i = a := by omega
  simp only [hi]

@[simp] theorem ld16_st16 (x : BitVec 16) : (s.st16 k a x).ld16 k a = x := by
  unfold ld16 st16
  rw [blit_inside (by omega) (by omega), blit_inside (by omega) (by omega)]
  ext i hi
  simp only [getElem_append, getElem_extractLsb', Nat.sub_self, Nat.add_sub_cancel_left]
  split
  · rw [Nat.mul_zero, Nat.zero_add]
    exact getLsbD_eq_getElem hi
  · rw [show 8 * 1 + (i - 8) = i by omega]
    exact getLsbD_eq_getElem hi

@[simp] theorem ld32_st32 (x : BitVec 32) : (s.st32 k a x).ld32 k a = x := by
  unfold ld32 st32
  rw [blit_inside (by omega) (by omega), blit_inside (by omega) (by omega),
    blit_inside (by omega) (by omega), blit_inside (by omega) (by omega)]
  ext i hi
  simp only [getElem_append, getElem_extractLsb', Nat.sub_self, Nat.add_sub_cancel_left]
  split
  · rw [Nat.mul_zero, Nat.zero_add]
    exact getLsbD_eq_getElem hi
  split
  · rw [show 8 * 1 + (i - 8) = i by omega]
    exact getLsbD_eq_getElem hi
  split
  · rw [show 8 * 2 + (i - 8 - 8) = i by omega]
    exact getLsbD_eq_getElem hi
  · rw [show 8 * 3 + (i - 8 - 8 - 8) = i by omega]
    exact getLsbD_eq_getElem hi

theorem ld16_zero (h : a ≤ a') (hn : a' + 2 ≤ a + n) : (s.zero k a n).ld16 k a' = 0 := by
  unfold ld16 zero
  rw [blit_inside (by omega) (by omega), blit_inside (by omega) (by omega)]
  rfl

theorem ld32_zero (h : a ≤ a') (hn : a' + 4 ≤ a + n) : (s.zero k a n).ld32 k a' = 0 := by
  unfold ld32 zero
  rw [blit_inside (by omega) (by omega), blit_inside (by omega) (by omega),
    blit_inside (by omega) (by omega), blit_inside (by omega) (by omega)]
  rfl

end Store
end Exokernel
