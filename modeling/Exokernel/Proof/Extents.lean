import Exokernel.Proof.Revoke

/-!
# Extents as sets of blocks

`xtnt_dominates` compares the ends of two extents, and the end of an extent is a sum in 64 bits.
**An extent that is accepted lies inside its source exactly if its own end does not wrap
around.** The source's end never does: nothing is accepted against such a source.

The size of a pxn is computed in more bits than it is stored in, and what is allocated is large
enough exactly if nothing is cut off.
-/
set_option autoImplicit false

namespace Exokernel

/-! ## 1. Ends -/

/-- The end of an extent as the code computes it. -/
def Xtnt.stop (x : Xtnt) : Nat := (x.block + x.size).toNat

theorem xtntDominates_iff {x y : Xtnt} :
    xtntDominates x y = true ↔ x.block.toNat ≤ y.block.toNat ∧ y.block.toNat < x.stop ∧
      x.block.toNat < y.stop ∧ y.stop ≤ x.stop := by
  simp only [xtntDominates, Xtnt.stop, Bool.and_eq_true, decide_eq_true_eq, BitVec.le_def,
    BitVec.lt_def, and_assoc]

/-- The blocks of an extent, as natural numbers. -/
def Xtnt.blocks (x : Xtnt) : Set Nat :=
  { n | x.block.toNat ≤ n ∧ n < x.block.toNat + x.size.toNat }

theorem Xtnt.stop_eq (x : Xtnt) : x.stop = (x.block.toNat + x.size.toNat) % 2 ^ 64 :=
  BitVec.toNat_add x.block x.size

/-! ## 2. What is accepted -/

/-- Nothing is accepted against a source that wraps around. -/
theorem stop_of_xtntDominates {x y : Xtnt} (h : xtntDominates x y = true) :
    x.stop = x.block.toNat + x.size.toNat := by
  obtain ⟨hle, hlt, -, -⟩ := xtntDominates_iff.mp h
  have hstop := x.stop_eq
  have hblock := x.block.isLt
  have hsize := x.size.isLt
  omega

theorem blocks_subset_iff {x y : Xtnt} (h : xtntDominates x y = true) :
    y.blocks ⊆ x.blocks ↔ y.block.toNat + y.size.toNat < 2 ^ 64 := by
  obtain ⟨hle, hlt, hlt', hle'⟩ := xtntDominates_iff.mp h
  have hx := stop_of_xtntDominates h
  have hstop := y.stop_eq
  have hxlt : x.stop < 2 ^ 64 := (x.block + x.size).isLt
  have hblock := y.block.isLt
  constructor
  · intro hsub
    by_contra hwrap
    -- the last block number there is belongs to an extent that wraps around, and not to the source
    have hlast : 2 ^ 64 - 1 ∈ y.blocks := ⟨by omega, by omega⟩
    have := (hsub hlast).2
    omega
  · intro hno n hn
    rw [Nat.mod_eq_of_lt hno] at hstop
    exact ⟨by have := hn.1; omega, by have := hn.2; omega⟩

theorem pxnSize_le_pxnAllocSz_iff (pc xc : BitVec 8) (bs : BitVec 16) :
    pxnSize pc xc bs ≤ (pxnAllocSz pc xc bs).toNat ↔ pxnSize pc xc bs < 2 ^ 16 := by
  have hlt := (pxnAllocSz pc xc bs).isLt
  rw [pxnAllocSz, BitVec.toNat_ofNat] at hlt ⊢
  constructor
  · intro h; omega
  · intro h; rw [Nat.mod_eq_of_lt h]

/-- **What is accepted lies inside its source exactly if its end does not wrap around**, and a
    pxn fits the block it is allocated in exactly if its size fits 16 bits. -/
theorem forged_inside_iff {P : Pxn} {x : Xtnt} {i : Nat} {b : Bptr} (pc xc : BitVec 8)
    (bs : BitVec 16) (h : findDominatingXtnt P x = some i) (hb : P.bptrs[i]? = some b) :
    (x.blocks ⊆ b.xtnt.blocks ↔ x.block.toNat + x.size.toNat < 2 ^ 64) ∧
      (pxnSize pc xc bs ≤ (pxnAllocSz pc xc bs).toNat ↔ pxnSize pc xc bs < 2 ^ 16) := by
  refine ⟨?_, pxnSize_le_pxnAllocSz_iff pc xc bs⟩
  obtain ⟨hlt, hfound, -⟩ := List.findIdx?_eq_some_iff_getElem.mp h
  rw [List.getElem?_eq_getElem hlt] at hb
  rw [Option.some.inj hb] at hfound
  simp only [Bool.and_eq_true] at hfound
  exact blocks_subset_iff hfound.2

/-- Five blocks out of a hundred, and 100 block pointers. -/
theorem forged_inside_five :
    findDominatingXtnt ⟨⟨0, 0⟩, [], [], [⟨.xtnt, ⟨10, 100⟩, none, 0⟩], 1, false⟩ ⟨20, 5⟩ = some 0 ∧
      Xtnt.blocks ⟨20, 5⟩ ⊆ Xtnt.blocks ⟨10, 100⟩ ∧
      pxnSize 1 1 100 ≤ (pxnAllocSz 1 1 100).toNat := by
  have h := forged_inside_iff (P := ⟨⟨0, 0⟩, [], [], [⟨.xtnt, ⟨10, 100⟩, none, 0⟩], 1, false⟩)
    (x := ⟨20, 5⟩) (i := 0) (b := ⟨.xtnt, ⟨10, 100⟩, none, 0⟩) 1 1 100 rfl rfl
  exact ⟨rfl, h.1.mpr (by decide), h.2.mpr (by decide)⟩

/-- Of a pxn with the first 100 blocks of a disk, another one gets all blocks from 20 to the end
    of the 64-bit numbers. And 1700 block pointers get 2532 bytes. -/
theorem forged_outside :
    (∃ s b b', Run.execAll PxnOp.exec (forgeOps ⟨20, 0xFFFFFFFFFFFFFFFB⟩) .empty = some s ∧
      s.bptr? 0 0 = some b ∧ XtntAt s (1, 0) b' ∧ b'.forgedFrom = some (0, 0) ∧
      ¬b'.xtnt.blocks ⊆ b.xtnt.blocks) ∧
      ¬pxnSize 1 1 1700 ≤ (pxnAllocSz 1 1 1700).toNat := by
  refine ⟨⟨_, ⟨.xtnt, ⟨0, 100⟩, none, 0⟩, ⟨.xtnt, ⟨20, 0xFFFFFFFFFFFFFFFB⟩, some (0, 0), 0⟩, rfl,
    rfl, ⟨rfl, rfl⟩, rfl, fun hsub => ?_⟩, by decide⟩
  have h := hsub (show 100 ∈ _ by constructor <;> decide)
  exact absurd h.2 (by decide)

end Exokernel
