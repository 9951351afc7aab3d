import Exokernel.Cffs.Directory
import Exokernel.Lib.Outcome

/-!
# What a request does to link counts — `SETINODENUM` and `SETTYPE`

The two actions of `serv_fsupdate_directory` that reach beyond the entry: they follow references to
inodes that the client passes. Here is, once for all that is proved about them, **everything a
request can come to** when it returns, and which bytes it stores into.
-/
set_option autoImplicit false

namespace Exokernel
namespace Cffs

open Outcome

/-! ## 1. Where they store -/

/-- The link count of an inode, the whole inode, and the type and number of an entry. -/
def linkBytes (r : BcRef) (k : Blk) (a : Nat) : Prop := k = r.blk ∧ r.off + 24 ≤ a ∧ a < r.off + 26
def dinodeBytes (r : BcRef) (k : Blk) (a : Nat) : Prop := k = r.blk ∧ r.off ≤ a ∧ a < r.off + 128
def entryBytes (r : BcRef) (k : Blk) (a : Nat) : Prop :=
  k = r.blk ∧ (a = r.off + 2 ∨ (r.off + 4 ≤ a ∧ a < r.off + 8))

theorem linkBytes.dinode {r : BcRef} {k : Blk} {a : Nat} (h : linkBytes r k a) :
    dinodeBytes r k a := ⟨h.1, by have := h.2; omega, by have := h.2; omega⟩

section
variable {s t : Store Blk} {resident : Blk → Bool} {arg : DirectoryArg} {P : Blk → Nat → Prop}

theorem touches_setLinkCount (h : Store.Touches s t P) {r : BcRef} (hp : ∀ k a, linkBytes r k a → P k a)
    (x : BitVec 16) : Store.Touches s (setLinkCount t r x) P := by
  unfold setLinkCount Store.st16
  exact h.blit fun i hi hn => hp _ i ⟨rfl, hi, hn⟩

theorem touches_entryType (h : Store.Touches s t P) {r : BcRef} (hp : ∀ k a, entryBytes r k a → P k a)
    (x : BitVec 8) : Store.Touches s (t.st8 r.blk (r.off + 2) x) P :=
  h.blit fun i hi hn => hp _ i ⟨rfl, .inl (by omega)⟩

theorem touches_inodeNum (h : Store.Touches s t P) {r : BcRef} (hp : ∀ k a, entryBytes r k a → P k a)
    (x : BitVec 32) : Store.Touches s (t.st32 r.blk (r.off + 4) x) P :=
  h.blit fun i hi hn => hp _ i ⟨rfl, .inr ⟨hi, by omega⟩⟩

/-! ## 2. What they come to -/

variable {d parent : BcRef}

/-- Everything that `CFFS_DIRECTORY_SETINODENUM` returns. -/
def Renumbered (s : Store Blk) (arg : DirectoryArg) (x : Answer) : Prop :=
  (x.2 = s ∧ x.1 = .error .inval) ∨
  (entryType s arg.dirent.blk arg.dirent.off = 0 ∧
    x.2 = s.st32 arg.dirent.blk (arg.dirent.off + 4) arg.param2) ∨
  (entryType s arg.dirent.blk arg.dirent.off ≠ 0 ∧
    dinodeNum s arg.refParam3 = inodeNum s arg.dirent.blk arg.dirent.off ∧
    dinodeNum s arg.refParam4 = arg.param2 ∧
    (dinodeType s arg.refParam3 = dinodeType s arg.refParam4 ∨
      (isDir s arg.refParam3 = false ∧ isDir s arg.refParam4 = false)) ∧
    (if isDir s arg.refParam4 then 2 else 1) ≤ (linkCount s arg.refParam4).toInt ∧
    x.2 = relink s arg arg.refParam3 arg.refParam4)

/-- It returns, but for a live entry without a number or an inode that is not resident. -/
theorem setinodenum_ends : Ends (Renumbered s arg)
    (fun _ => entryType s arg.dirent.blk arg.dirent.off ≠ 0 ∧
      (inodeNum s arg.dirent.blk arg.dirent.off = 0 ∨
        resident arg.refParam3.blk = false ∨ resident arg.refParam4.blk = false))
    (setinodenum resident s arg) := by
  unfold setinodenum
  dsimp only
  split
  · rename_i hdead
    exact .inr (.inl ⟨hdead, rfl⟩)
  rename_i hlive
  split
  · exact .inl ⟨rfl, rfl⟩
  split
  · rename_i hzero
    exact ⟨hlive, .inl hzero⟩
  cases h3 : resident arg.refParam3.blk with
  | false => simp only [translateAddress, h3]; exact ⟨hlive, .inr (.inl trivial)⟩
  | true =>
    rw [translateAddress_resident h3]
    dsimp only
    split
    · exact .inl ⟨rfl, rfl⟩
    rename_i hold
    cases h4 : resident arg.refParam4.blk with
    | false => simp only [translateAddress, h4]; exact ⟨hlive, .inr (.inr trivial)⟩
    | true =>
      rw [translateAddress_resident h4]
      dsimp only
      split
      · exact .inl ⟨rfl, rfl⟩
      rename_i hnew
      split
      · exact .inl ⟨rfl, rfl⟩
      rename_i htype
      by_cases hcount : (linkCount s arg.refParam4).toInt < if isDir s arg.refParam4 then 2 else 1
      · rw [if_pos hcount]
        exact .inl ⟨rfl, rfl⟩
      rw [if_neg hcount]
      refine .inr (.inr ⟨hlive, not_not.mp hold, not_not.mp hnew, ?_, not_lt.mp hcount, rfl⟩)
      simpa only [ne_eq, not_and_or, not_not, not_or, Bool.not_eq_true] using htype

theorem settypeLink_ends : Ends
    (fun x => x.2 = s ∨
      (dinodeNum s d ≠ 0 ∧ 1 ≤ (linkCount s d).toInt ∧ isDir s d = false ∧
        (dinodeType s d).setWidth 32 = arg.param2 <<< 8 ∧ x.2 = addLink s arg d) ∨
      (dinodeNum s d = 0 ∧ x.2 = addLink (createDinode s arg d parent) arg d))
    (fun e => isNameUnique resident s arg.param5 parent
      (entryName s arg.dirent.blk arg.dirent.off) (nameLen s arg.dirent.blk arg.dirent.off) =
        .error e)
    (settypeLink resident s arg d parent) := by
  unfold settypeLink
  dsimp only
  cases hu : isNameUnique resident s arg.param5 parent
      (entryName s arg.dirent.blk arg.dirent.off) (nameLen s arg.dirent.blk arg.dirent.off) with
  | error e => rfl
  | ok b =>
    cases b with
    | false => exact .inl rfl
    | true =>
      change Ends _ _ (if dinodeNum s d ≠ 0 then
          if (linkCount s d).toInt < (if isDir s d then 2 else 1) then _ else _
        else _)
      split
      · rename_i hz
        by_cases hcount : (linkCount s d).toInt < (if isDir s d then 2 else 1)
        · rw [if_pos hcount]
          exact .inl rfl
        rw [if_neg hcount]
        split
        · exact .inl rfl
        rename_i hdir
        split
        · exact .inl rfl
        rename_i htype
        rw [if_neg hdir] at hcount
        exact .inr (.inl ⟨hz, not_lt.mp hcount, by simpa using hdir, not_not.mp htype, rfl⟩)
      · rename_i hz
        split
        · exact .inl rfl
        · exact .inr (.inr ⟨not_not.mp hz, rfl⟩)

theorem settype_ends : Ends
    (fun x => x.2 = s ∨
      (arg.param2 ≠ 0 ∧ entryType s arg.dirent.blk arg.dirent.off = 0 ∧
        dinodeNum s arg.refParam3 ≠ 0 ∧
        dinodeNum s arg.refParam3 = inodeNum s arg.dirent.blk arg.dirent.off ∧
        1 ≤ (linkCount s arg.refParam3).toInt ∧ isDir s arg.refParam3 = false ∧
        (dinodeType s arg.refParam3).setWidth 32 = arg.param2 <<< 8 ∧
        x.2 = addLink s arg arg.refParam3) ∨
      (arg.param2 ≠ 0 ∧ entryType s arg.dirent.blk arg.dirent.off = 0 ∧
        inodeNum s arg.dirent.blk arg.dirent.off ≠ 0 ∧
        dinodeNum s arg.refParam3 = 0 ∧ dinodeNum s arg.refParam4 ≠ 0 ∧
        x.2 = addLink (createDinode s arg arg.refParam3 arg.refParam4) arg arg.refParam3) ∨
      (arg.param2 = 0 ∧ entryType s arg.dirent.blk arg.dirent.off ≠ 0 ∧
        (dinodeNum s arg.refParam3 = 0 ∨
          dinodeNum s arg.refParam3 = inodeNum s arg.dirent.blk arg.dirent.off) ∧
        x.2 = removeLink s arg arg.refParam3 arg.refParam4))
    (fun e => resident arg.refParam3.blk = false ∨
      (arg.param2 ≠ 0 ∧ isNameUnique resident s arg.param5 arg.refParam4
        (entryName s arg.dirent.blk arg.dirent.off) (nameLen s arg.dirent.blk arg.dirent.off) =
          .error e) ∨
      (arg.param2 = 0 ∧ isDir s arg.refParam3 = true ∧
        dirNum s arg.refParam3 ≠ dinodeNum s arg.refParam4))
    (settype resident s arg) := by
  unfold settype
  dsimp only
  split
  · exact .inl rfl
  rename_i hsame
  split
  · exact .inl rfl
  rename_i hchange
  split
  · exact .inl rfl
  rename_i hnum
  cases h3 : resident arg.refParam3.blk with
  | false => simp only [translateAddress, h3]; exact .inl trivial
  | true =>
    rw [translateAddress_resident h3]
    dsimp only
    split
    · exact .inl rfl
    rename_i hmatch
    have hnumber : dinodeNum s arg.refParam3 = 0 ∨
        dinodeNum s arg.refParam3 = inodeNum s arg.dirent.blk arg.dirent.off := by
      simpa only [ne_eq, not_and_or, not_not] using hmatch
    rcases translateAddress_cases resident arg.refParam4 with h4 | h4
    · rw [h4]
      dsimp only
      split
      · exact .inl rfl
      rename_i hparent
      split
      · rename_i htype
        have hdead : entryType s arg.dirent.blk arg.dirent.off = 0 := by
          by_contra hlive
          exact hchange ⟨hlive, htype⟩
        refine settypeLink_ends.imp (fun x hx => ?_) fun e he => .inr (.inl ⟨htype, he⟩)
        rcases hx with hx | ⟨hd, hcount, hdir, hty, hx⟩ | ⟨hd, hx⟩
        · exact .inl hx
        · exact .inr (.inl
            ⟨htype, hdead, hd, hnumber.resolve_left hd, hcount, hdir, hty, hx⟩)
        · exact .inr (.inr (.inl
            ⟨htype, hdead, fun hz => hnum ⟨htype, hz⟩, hd, hparent, hx⟩))
      · rename_i htype
        replace htype : arg.param2 = 0 := not_not.mp htype
        unfold settypeUnlink
        split
        · rename_i hassert
          exact .inr (.inr ⟨htype, hassert⟩)
        refine .inr (.inr (.inr ⟨htype, fun hdead => hsame ?_, hnumber, rfl⟩))
        rw [hdead, htype]
        rfl
    · rw [h4]
      exact .inl rfl

/-! ## 3. The bytes of each outcome -/

theorem touches_relink (hp : ∀ k a, entryBytes arg.dirent k a → P k a) {old new : BcRef}
    (hold : ∀ k a, linkBytes old k a → P k a) (hnew : ∀ k a, linkBytes new k a → P k a) :
    Store.Touches s (relink s arg old new) P := by
  unfold relink
  apply touches_entryType _ hp
  apply touches_inodeNum _ hp
  apply touches_setLinkCount _ hnew
  exact touches_setLinkCount (.refl _ _) hold _

theorem touches_addLink (h : Store.Touches s t P) (hp : ∀ k a, entryBytes arg.dirent k a → P k a)
    (hd : ∀ k a, linkBytes d k a → P k a) :
    Store.Touches s (addLink t arg d) P := by
  unfold addLink
  apply touches_entryType _ hp
  exact touches_setLinkCount h hd _

theorem touches_removeLink (hp : ∀ k a, entryBytes arg.dirent k a → P k a)
    (hd : ∀ k a, linkBytes d k a → P k a) (hparent : ∀ k a, linkBytes parent k a → P k a) :
    Store.Touches s (removeLink s arg d parent) P := by
  unfold removeLink
  apply touches_setLinkCount _ hd
  apply touches_entryType _ hp
  split
  · exact touches_setLinkCount (.refl _ _) hparent _
  · exact .refl _ _

theorem touches_initDinode (hd : ∀ k a, dinodeBytes d k a → P k a) :
    Store.Touches s (initDinode s arg d parent) P := by
  have hin : ∀ a n i, d.off.val ≤ a → a + n ≤ d.off + 128 → a ≤ i → i < a + n → P d.blk i :=
    fun a n i ha hn hi hin => hd _ i ⟨rfl, by omega, by omega⟩
  unfold initDinode Store.st16 Store.st32 Store.zero
  apply Store.Touches.blit _ fun i => hin _ _ i (by omega) (by omega)
  apply Store.Touches.blit _ fun i => hin _ _ i (by omega) (by omega)
  apply Store.Touches.blit _ fun i => hin _ _ i (by omega) (by omega)
  apply Store.Touches.blit _ fun i => hin _ _ i (by omega) (by omega)
  exact Store.Touches.blit (.refl _ _) fun i => hin _ 128 i (by omega) (by omega)

theorem touches_createDinode (hd : ∀ k a, dinodeBytes d k a → P k a)
    (hparent : ∀ k a, linkBytes parent k a → P k a) :
    Store.Touches s (createDinode s arg d parent) P := by
  unfold createDinode
  dsimp only
  split
  · apply touches_setLinkCount _ hparent
    exact touches_setLinkCount (touches_initDinode hd) (fun k a h => hd k a h.dinode) _
  · exact touches_initDinode hd

end

end Cffs
end Exokernel
