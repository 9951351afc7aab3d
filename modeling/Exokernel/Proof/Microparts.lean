import Exokernel.Proof.MicropartInv

/-!
# Micropartitions — the six calls, in any order

**No call compares the two records.** `sys_micropart_init` and `sys_micropart_load` replace
the freemap while pxns hold extents, `sys_micropart_free` forgets it after looking at its
first entry only, `sys_micropart_alloc` gives away the first micropartition and writes down
a capability that need not have to do with the pxn's. `MicroOp.Careful` is what the callers
would have to see to; under it the records agree in every run.
-/
set_option autoImplicit false

namespace Exokernel

open Option

/-! ## 1. The calls -/

/-- The calls on micropartitions. `fuel` bounds how deep pxns are followed. -/
inductive MicroOp where
  | init (cur : Fin nenv) (part kcap : BitVec 32)
  | load (cur : Fin nenv) (part kcap : BitVec 32)
  | alloc (cur : Fin nenv) (part upart kcap fsid : BitVec 32)
  | dealloc (fuel : Nat) (cur : Fin nenv) (part upart kcap fsid : BitVec 32)
  | bootfs (cur : Fin nenv) (part kcap fsid : BitVec 32) (mem : Option (Nat → AclEntry))
  | free (fuel : Nat) (cur : Fin nenv) (part kcap : BitVec 32)

namespace MicroOp

def exec (k : Kernel) : MicroOp → Option Kernel
  | init cur part kcap => (sysMicropartInit k cur part kcap).map Prod.snd
  | load cur part kcap => (sysMicropartLoad k cur part kcap).map Prod.snd
  | alloc cur part upart kcap fsid => some (sysMicropartAlloc k cur part upart kcap fsid).2
  | dealloc fuel cur part upart kcap fsid =>
    (sysMicropartDealloc fuel k cur part upart kcap fsid).map Prod.snd
  | bootfs cur part kcap fsid mem => some (sysMicropartBootfs k cur part kcap fsid mem).2
  | free fuel cur part kcap => (sysMicropartFree fuel k cur part kcap).map Prod.snd

/-- What the callers would have to see to. A freemap is set up only while no pxn of the run
    holds an extent of the disk, with a geometry that does not overflow. The first
    micropartition is not given away, by `sys_micropart_alloc` or by a freemap that grants it
    to the file system being started. A capability written into the freemap is dominated by
    those of the pxn that gets the extent, and there is none in the memory a new pxn's lists
    are laid over. A disk is given up only when the one pxn holding extents is that of the
    freemap's first entry, and nothing else refers to it. -/
def Careful (n₀ : Nat) (k : Kernel) : MicroOp → Prop
  | init _ part _ => ¬Occupied n₀ k part.toNat ∧ ((k.micropart part.toNat).loaded = false →
      Sane (numMicro (k.disks part.toNat)) (microSz (k.disks part.toNat)))
  | load _ part _ => ¬Occupied n₀ k part.toNat ∧
      ∀ b, bcLookup64 k.mem part micropartMetadataPage = some b →
        Sane (k.headers (k.mem.bufs b).ppn).numMicroparts (k.headers (k.mem.bufs b).ppn).micropartSz
  | alloc cur part upart kcap fsid => upart ≠ 0 ∧ ∀ p P c, n₀ ≤ p →
      lookupPxn k.pxn (fsName part fsid) = some p → k.pxn.pxns p = some P →
      envGetcap (k.envs cur) kcap = .ok c →
      ∀ e ∈ P.acls, e.cap.valid = true → capDominates e.cap c.1 = true
  | dealloc .. => True
  | bootfs _ part _ fsid mem =>
      ¬(((k.header part.toNat).freemap 0).cap.valid = true ∧
        ((k.header part.toNat).freemap 0).id = fsid) ∧
      ∀ junk, mem = some junk → ∀ i, (junk i).cap.valid = false
  | free _ _ part _ => ∀ p P i b, n₀ ≤ p → k.pxn.pxns p = some P →
      P.name.dev.toNat = part.toNat → XtntAt k.pxn (p, i) b →
      ((k.header part.toNat).freemap 0).cap.valid = true ∧
        P.name = fsName part ((k.header part.toNat).freemap 0).id ∧ P.refcnt = 1

end MicroOp

namespace MicroInv

variable {n₀ : Nat} {k k' : Kernel} {r : Ret} {cur : Fin nenv} {part upart kcap fsid : BitVec 32}

section

variable (h : MicroInv n₀ k)
include h

theorem pin (p : Nat) : MicroInv n₀ (k.setMem (ppagePin k.mem p)) :=
  h.setMem (h.page.pin p) fun q hq => (h.header q hq).1.pin p

theorem setDirty (hload : (k.micropart part.toNat).loaded = true) :
    MicroInv n₀ (k.setMem (bcSetDirty k.mem (k.micropart part.toNat).bc)) :=
  h.setMem (h.page.exec (show PageOp.Contract k.mem (.setDirty _) from
    (h.header _ hload).1.cached)) fun q hq => (h.header q hq).1.setDirty _

theorem clear (hload : (k.micropart part.toNat).loaded = true)
    (hno : ¬Occupied n₀ k part.toNat) :
    MicroInv n₀ (k.modHeader part.toNat (·.clear)) :=
  h.modHeader hload (fun _ => rfl) (fun _ => rfl) fun p P i b _ hp hP hb hdev _ _ =>
    absurd ⟨p, P, i, b, hp, hP, hdev, hb⟩ hno

/-- `sys_micropart_init` finds a page for a freemap, and pins it. -/
theorem micropartNewHeader (hno : ¬Occupied n₀ k part.toNat)
    (hsane : Sane (numMicro (k.disks part.toNat)) (microSz (k.disks part.toNat)))
    {e : Except Errno Unit} (hs : Exokernel.micropartNewHeader k part = some (e, k')) :
    MicroInv n₀ k' ∧ k'.pxn = k.pxn ∧
      (e = .ok () → (k'.micropart part.toNat).loaded = true) := by
  unfold Exokernel.micropartNewHeader at hs
  split at hs
  · rename_i m heq
    cases hs
    refine ⟨h.setMem (ppageGetReclaimableBuffer_inv h.page heq).1 fun q hq => ?_, rfl, by simp⟩
    exact ((h.header q hq).1.getReclaimableBuffer h.page heq).1
  rename_i b m heq
  obtain ⟨hinv, -, -, hnew⟩ := ppageGetReclaimableBuffer_inv h.page heq
  obtain ⟨hcached, hdev, -⟩ := hnew b rfl
  have hm : MicroInv n₀ (k.setMem m) := h.setMem hinv fun q hq =>
    ((h.header q hq).1.getReclaimableBuffer h.page heq).1
  dsimp only at hs
  split at hs
  · cases hs
  cases hs
  refine ⟨(hm.pin (m.bufs b).ppn).newHeader hno ⟨hcached, congrArg _ hdev, rfl, ?_⟩ hsane,
    rfl, fun _ => ?_⟩
  · simp [ppagePin, Mem.modPage, Kernel.setMem]
  · simp [Kernel.modHeader, Kernel.setMicropart]

theorem init (hok : (MicroOp.init cur part kcap).Careful n₀ k)
    (hs : sysMicropartInit k cur part kcap = some (r, k')) : MicroInv n₀ k' := by
  obtain ⟨hno, hsane⟩ := hok
  unfold sysMicropartInit at hs
  split at hs
  · cases hs; exact h
  split at hs
  · cases hs; exact h
  split at hs
  · rename_i hload
    split at hs
    · cases hs; exact h
    split at hs
    · cases hs
    · cases hs; exact h.clear hload hno
  rename_i hload
  obtain ⟨⟨e, k₁⟩, hk₁, hs⟩ := map_eq_some_iff.mp hs
  obtain ⟨hinv, hpxn, hloaded⟩ :=
    h.micropartNewHeader hno (hsane (by simpa using hload)) hk₁
  cases e with
  | error e => exact (Prod.mk.inj hs).2 ▸ hinv
  | ok u =>
    refine (Prod.mk.inj hs).2 ▸ hinv.clear (hloaded rfl) ?_
    rwa [Occupied, hpxn]

theorem load (hok : (MicroOp.load cur part kcap).Careful n₀ k)
    (hs : sysMicropartLoad k cur part kcap = some (r, k')) : MicroInv n₀ k' := by
  obtain ⟨hno, hsane⟩ := hok
  unfold sysMicropartLoad at hs
  split at hs
  · cases hs; exact h
  split at hs
  · cases hs; exact h
  rename_i hload
  split at hs
  · cases hs; exact h
  obtain ⟨b, hb, hs⟩ := bind_eq_some_iff.mp hs
  obtain ⟨hcached, hdev, -⟩ := bcLookup64_some h.page.cache hb
  -- the page is pinned and taken for a header whatever is in it
  have hpin : MicroInv n₀ ((k.setMem (ppagePin k.mem (k.mem.bufs b).ppn)).setMicropart
      part.toNat { k.micropart part.toNat with header := (k.mem.bufs b).ppn }) :=
    (h.pin _).setMicropart hno fun hl => absurd hl hload
  dsimp only at hs
  split at hs
  · cases hs; exact hpin
  split at hs
  · cases hs; exact hpin
  refine (Prod.mk.inj (some.inj hs)).2 ▸ hpin.setMicropart hno fun _ =>
    ⟨⟨hcached, congrArg _ hdev, rfl, ?_⟩, hsane b hb⟩
  simp [ppagePin, Mem.modPage, Kernel.setMem, Kernel.setMicropart]

/-- `sys_micropart_alloc`: the entry was empty, so no extent rests on it. -/
theorem alloc (hok : (MicroOp.alloc cur part upart kcap fsid).Careful n₀ k) :
    MicroInv n₀ (sysMicropartAlloc k cur part upart kcap fsid).2 := by
  obtain ⟨hpos, hdom⟩ := hok
  unfold sysMicropartAlloc
  split
  · exact h
  split
  · exact h
  rename_i hload
  split
  · exact h
  rename_i hlt
  split
  · exact h
  split
  · exact h
  rename_i hinvalid
  replace hload : (k.micropart part.toNat).loaded = true := by simpa using hload
  replace hlt : upart < (k.header part.toNat).numMicroparts := by simpa using hlt
  cases hc : envGetcap (k.envs cur) kcap with
  | error e => exact h
  | ok c =>
    have h₁ : MicroInv n₀ (k.modHeader part.toNat (·.setFsid upart.toNat ⟨c.1, fsid⟩)) := by
      refine h.modHeader hload (fun _ => rfl) (fun _ => rfl) fun p P i b l _ _ _ _ _ hg => ?_
      refine hg.setFsid_ne (fun he => ?_) _
      subst he
      exact hinvalid hg.valid
    have hgrant : ∀ P : Pxn, (∀ e ∈ P.acls, e.cap.valid = true → capDominates e.cap c.1 = true) →
        Granted ((k.header part.toNat).setFsid upart.toNat ⟨c.1, fsid⟩) (fsName part fsid) P.acls
          upart := by
      intro P hP
      have hself : ((k.header part.toNat).setFsid upart.toNat ⟨c.1, fsid⟩).freemap upart.toNat
          = ⟨c.1, fsid⟩ := Function.update_self ..
      refine ⟨hpos, hlt, ?_, ?_, ?_⟩ <;> rw [hself]
      exacts [(envGetcap_ok hc).1, rfl, hP]
    refine (h₁.setDirty hload).setPxn ((h₁.setDirty hload).own.kernelAddXtnt _ _ ?_)
    intro p P hp hl hP
    have hg := hgrant P (hdom p P c hp hl hP hc)
    rw [← Kernel.modHeader_header k part.toNat (·.setFsid upart.toNat ⟨c.1, fsid⟩)] at hg
    exact ⟨hload, upart, hg, rfl⟩

/-- `sys_micropart_dealloc`: every extent that rested on the entry was in the pxn it names. -/
theorem dealloc {fuel : Nat}
    (hs : sysMicropartDealloc fuel k cur part upart kcap fsid = some (r, k')) :
    MicroInv n₀ k' := by
  unfold sysMicropartDealloc at hs
  split at hs
  · cases hs; exact h
  split at hs
  · cases hs; exact h
  rename_i hload
  split at hs
  · cases hs; exact h
  rename_i hlt
  split at hs
  · cases hs; exact h
  dsimp only at hs
  split at hs
  · cases hs; exact h
  replace hload : (k.micropart part.toNat).loaded = true := by simpa using hload
  replace hlt : upart < (k.header part.toNat).numMicroparts := by simpa using hlt
  cases hc : envGetcap (k.envs cur) kcap with
  | error e =>
    rw [hc] at hs
    cases hs; exact h
  | ok c =>
    simp only [hc] at hs
    split at hs
    · cases hs; exact h
    split at hs
    · cases hs; exact h
    rename_i hid
    split at hs
    · cases hs; exact h
    rename_i p hl
    obtain ⟨s, hrem, hs⟩ := map_eq_some_iff.mp hs
    have hpr := pxnRemoveXtnt_prunes fuel _ _ _ _ hrem
    have h₁ : MicroInv n₀ (k.setPxn s) := h.setPxn (h.own.prunes hpr)
    refine (Prod.mk.inj hs).2 ▸ MicroInv.setDirty ?_ hload
    refine h₁.modHeader hload (fun _ => rfl) (fun _ => rfl) fun q Q i b l hq hQ hb hdev hx hg => ?_
    have hne : l ≠ upart := by
      rintro rfl
      -- an extent of the entry is in the pxn the entry names, and that one has been cleaned
      obtain ⟨Q₀, hQ₀, hQpr⟩ := hpr.pxns q Q hQ
      have hname : Q₀.name = fsName part fsid := by
        have hid' : ((k.header part.toNat).freemap l.toNat).id = fsid := by simpa using hid
        rw [← hQpr.name]
        exact XnName.ext (BitVec.eq_of_toNat_eq hdev)
          (hg.name.trans (congrArg (BitVec.setWidth 64) hid'))
      have hqp : q = p := h.own.lookup_eq hq hQ₀ (hname ▸ hl)
      subst hqp
      have hgone := pxnRemoveXtnt_gone hrem hb
      have hdom := (h.header _ hload).2.dominates_self hlt
      rw [show b.xtnt = micropartXtnt (k.header part.toNat) l from hx, hdom] at hgone
      cases hgone
    exact hg.setFsid_ne hne _

end

/-- The loop of `sys_micropart_bootfs`. The lists of the pxn being filled hold `c` and no
    other capability, and `c` dominates what the freemap says before each extent is added. -/
theorem bootfsLoop (hload : (k.micropart part.toNat).loaded = true) {c : Cap}
    (hfirst : ¬(((k.header part.toNat).freemap 0).cap.valid = true ∧
      ((k.header part.toNat).freemap 0).id = fsid)) (left : Nat) :
    ∀ {i : Nat} {s : PxnState}, i + left = (k.header part.toNat).numMicroparts.toNat →
      OwnInv n₀ k.Owned s →
      (∀ p P, n₀ ≤ p → s.pxns p = some P → P.name = fsName part fsid →
        ∀ e ∈ P.acls, e.cap.valid = true → e.cap = c) →
      OwnInv n₀ k.Owned
        (Exokernel.bootfsLoop (k.header part.toNat) part fsid c left i s).2 := by
  induction left with
  | zero => exact fun _ hs _ => hs
  | succ left ih =>
    intro i s hi hs hacl
    unfold Exokernel.bootfsLoop
    dsimp only
    split
    · rename_i hentry
      simp only [Bool.and_eq_true, decide_eq_true_eq] at hentry
      split
      · exact hs
      rename_i hdom
      replace hdom : capDominates c ((k.header part.toNat).freemap i).cap = true := by
        simpa using hdom
      have hlt := (k.header part.toNat).numMicroparts.isLt
      have hnat : (BitVec.ofNat 32 i).toNat = i := by
        rw [BitVec.toNat_ofNat]
        exact Nat.mod_eq_of_lt (by omega)
      have hs' : OwnInv n₀ k.Owned (pxnKernelAddXtnt s (fsName part fsid)
          (micropartXtnt (k.header part.toNat) (BitVec.ofNat 32 i))).2 := by
        refine hs.kernelAddXtnt _ _ fun p P hp hl hP => ?_
        obtain ⟨-, P', hP', hname⟩ := lookupPxn_some hl
        obtain rfl : P = P' := some.inj (hP.symm.trans hP')
        refine ⟨hload, BitVec.ofNat 32 i, ⟨fun hz => ?_, ?_, ?_, ?_, fun e he hv => ?_⟩, rfl⟩
        · have : i = 0 := by rw [← hnat, hz]; rfl
          exact hfirst (this ▸ hentry)
        · refine BitVec.lt_def.mpr (?_ : _ < (k.header part.toNat).numMicroparts.toNat)
          omega
        · exact hnat.symm ▸ hentry.1
        · rw [hnat]
          exact congrArg (BitVec.setWidth 64) hentry.2.symm
        · rw [hacl p P hp hP hname e he hv, hnat]
          exact hdom
      split
      · rename_i heq
        exact (congrArg Prod.snd heq) ▸ hs'
      rename_i s₁ heq
      have hs₁ : (pxnKernelAddXtnt s (fsName part fsid) _).2 = s₁ := congrArg Prod.snd heq
      refine ih (by omega) (hs₁ ▸ hs') fun p P hp hP hname => ?_
      obtain ⟨P₀, hP₀, hn₀, ha₀⟩ := pxnKernelAddXtnt_labels (hs₁.symm ▸ hP)
      rw [ha₀]
      exact hacl p P₀ hp hP₀ (hn₀ ▸ hname)
    · exact ih (by omega) hs hacl

theorem bootfs (h : MicroInv n₀ k) {mem : Option (Nat → AclEntry)}
    (hok : (MicroOp.bootfs cur part kcap fsid mem).Careful n₀ k) :
    MicroInv n₀ (sysMicropartBootfs k cur part kcap fsid mem).2 := by
  obtain ⟨hfirst, hjunk⟩ := hok
  unfold sysMicropartBootfs
  split
  · exact h
  rename_i hpart
  split
  · exact h
  rename_i hload
  split
  · exact h
  replace hload : (k.micropart part.toNat).loaded = true := by simpa using hload
  have hdisk : isPxnDiskDev (fsName part fsid) = true := by
    have := k.ndisks_le
    exact decide_eq_true (show part.toNat < maxDisks by omega)
  cases hc : envGetcap (k.envs cur) kcap with
  | error e => exact h
  | ok c =>
    dsimp only
    have hown := h.own.alloc hdisk 3 3 ((k.header part.toNat).numMicroparts.setWidth 16) c.1 c.1 mem
    cases ha : pxnAlloc k.pxn 3 3 ((k.header part.toNat).numMicroparts.setWidth 16) c.1 c.1
        (fsName part fsid) mem with
    | mk e s =>
      rw [ha] at hown
      cases e with
      | error e => exact h.setPxn hown
      | ok u =>
        exact h.setPxn (MicroInv.bootfsLoop hload hfirst _ (Nat.zero_add _) hown
          fun p P hp hP hname => h.own.alloc_acls hdisk hjunk ha hp hP hname)

theorem pxnDealloc_frees {fuel p : Nat} {s s' : PxnState} {P : Pxn} (hP : s.pxns p = some P)
    (href : P.refcnt = 1) (hs : pxnDealloc fuel s p = some s') : s'.pxns p = none := by
  cases fuel with
  | zero => exact absurd hs (by simp [pxnDealloc])
  | succ fuel =>
    simp only [pxnDealloc, hP, bind_some, href, sub_self, ne_eq, not_true, if_false] at hs
    obtain ⟨s₁, -, hs⟩ := bind_eq_some_iff.mp hs
    cases hs
    simp [freePxn]

theorem micropartFreeLoop_prunes {fuel : Nat} {entry : Fsid} (n : Nat) : ∀ {s s' : PxnState},
    micropartFreeLoop fuel part entry n s = some s' → Prunes s s' := by
  induction n with
  | zero =>
    intro s s' hs
    obtain rfl : s = s' := by simpa [micropartFreeLoop] using hs
    exact .refl s
  | succ n ih =>
    intro s s' hs
    unfold micropartFreeLoop at hs
    split at hs
    · split at hs
      · obtain ⟨s₁, h₁, hs⟩ := bind_eq_some_iff.mp hs
        exact (pxnDealloc_prunes fuel _ _ _ h₁).trans (ih hs)
      · exact ih hs
    · exact ih hs

/-- `sys_micropart_free`: the first round frees the one pxn that may hold extents. -/
theorem free (h : MicroInv n₀ k) {fuel : Nat} (hok : (MicroOp.free fuel cur part kcap).Careful n₀ k)
    (hs : sysMicropartFree fuel k cur part kcap = some (r, k')) : MicroInv n₀ k' := by
  unfold sysMicropartFree at hs
  split at hs
  · cases hs; exact h
  split at hs
  · cases hs; exact h
  dsimp only at hs
  split at hs
  · cases hs; exact h
  rename_i hload
  replace hload : (k.micropart part.toNat).loaded = true := by simpa using hload
  obtain ⟨s, hloop, hs⟩ := map_eq_some_iff.mp hs
  have hpr := micropartFreeLoop_prunes _ hloop
  have h₁ : MicroInv n₀ (k.setPxn s) := h.setPxn (h.own.prunes hpr)
  have hno : ¬Occupied n₀ (k.setPxn s) part.toNat := by
    rintro ⟨p, P', i, b, hp, hP', hdev, hb⟩
    obtain ⟨P, hP, hPpr⟩ := hpr.pxns p P' hP'
    rw [hPpr.name] at hdev
    have hb₀ := hpr.xtntAt hb
    obtain ⟨hvalid, hname, href⟩ := hok p P i b hp hP hdev hb₀
    obtain ⟨-, l, hg, -⟩ := h.own.own p P i b hp hP hb₀
    rw [hdev] at hg
    have hlt := BitVec.lt_def.mp hg.lt
    obtain ⟨n, hn⟩ : ∃ n, (k.header part.toNat).numMicroparts.toNat = n + 1 :=
      Nat.exists_eq_succ_of_ne_zero (by omega)
    rw [hn, micropartFreeLoop, if_pos hvalid, ← hname, h.own.lookup_self hp hP] at hloop
    obtain ⟨s₁, hde, hloop⟩ := bind_eq_some_iff.mp hloop
    obtain ⟨P₁, hP₁, -⟩ := (micropartFreeLoop_prunes n hloop).pxns p P' hP'
    rw [pxnDealloc_frees hP href hde] at hP₁
    cases hP₁
  -- given up before it is unpinned: the invariant asks for pins of loaded disks only
  have h₂ : MicroInv n₀ ((k.setPxn s).setMicropart part.toNat
      { k.micropart part.toNat with loaded := false }) :=
    h₁.setMicropart hno fun hl => nomatch hl
  refine (Prod.mk.inj hs).2 ▸ h₂.setMem (h.page.unpin _) fun q hq => (h₂.header q hq).1.unpin ?_
  by_cases hqp : q = part.toNat
  · subst hqp
    simp [Kernel.setMicropart] at hq
  simp only [Kernel.setMicropart, Function.update_of_ne hqp] at hq ⊢
  have hpart := (h.header _ hload).1
  rw [show (k.setPxn s).mem = k.mem from rfl, hpart.ppn]
  exact (h.header q hq).1.ne hpart h.page hqp

theorem exec (h : MicroInv n₀ k) {op : MicroOp} (hok : op.Careful n₀ k)
    (hs : op.exec k = some k') : MicroInv n₀ k' := by
  cases op with
  | init cur part kcap =>
    obtain ⟨⟨r, _⟩, hk, rfl⟩ := map_eq_some_iff.mp hs
    exact h.init hok hk
  | load cur part kcap =>
    obtain ⟨⟨r, _⟩, hk, rfl⟩ := map_eq_some_iff.mp hs
    exact h.load hok hk
  | alloc cur part upart kcap fsid => exact some.inj hs ▸ h.alloc hok
  | dealloc fuel cur part upart kcap fsid =>
    obtain ⟨⟨r, _⟩, hk, rfl⟩ := map_eq_some_iff.mp hs
    exact h.dealloc hk
  | bootfs cur part kcap fsid mem => exact some.inj hs ▸ h.bootfs hok
  | free fuel cur part kcap =>
    obtain ⟨⟨r, _⟩, hk, rfl⟩ := map_eq_some_iff.mp hs
    exact h.free hok hk

end MicroInv

/-! ## 2. Every run -/

/-- As the kernel comes up: no disk has a freemap loaded, and the numbers of new pxns are
    free. -/
structure Kernel.Unloaded (k : Kernel) : Prop where
  page : PageInv k.mem
  fresh : ∀ p, k.pxn.nextPxn ≤ p → k.pxn.pxns p = none
  none : ∀ part, (k.micropart part).loaded = false

/-- Nothing has been made yet, so there is nothing to own. -/
theorem Kernel.Unloaded.microInv {k : Kernel} (h : k.Unloaded) : MicroInv k.pxn.nextPxn k := by
  have hnone : ∀ {p P}, k.pxn.nextPxn ≤ p → k.pxn.pxns p ≠ some P := fun hp hP => by
    rw [h.fresh _ hp] at hP
    cases hP
  exact ⟨h.page, fun part hl => absurd (h.none part) (by simp [hl]), le_rfl, h.fresh,
    fun _ _ hp hP => absurd hP (hnone hp), fun _ _ _ _ hp hP => absurd hP (hnone hp),
    fun _ _ _ _ hp hP => absurd hP (hnone hp)⟩

/-- **Ownership is exclusive in every state a run of careful calls reaches**, by whichever
    environments the calls are made. -/
theorem micropart_exclusive_of_careful {k₀ k : Kernel} (h₀ : k₀.Unloaded)
    (hrun : Run.Reaches (fun k op k' => MicroOp.exec k op = some k')
      (fun k op => op.Careful k₀.pxn.nextPxn k) k₀ k) :
    Exclusive k₀.pxn.nextPxn k := by
  have hinv : MicroInv k₀.pxn.nextPxn k :=
    hrun.invariant h₀.microInv fun _ _ _ h hok hs => h.exec hok hs
  exact hinv.exclusive

/-- The small machine with a pxn for its disk, and memory that holds no capabilities. -/
def blankMem : Option (Nat → AclEntry) := some fun _ => .ofCap Cap.null
def diskKernel : Kernel :=
  smallKernel.setPxn (pxnAlloc .empty 3 3 4 rootCap.1 rootCap.1 ⟨0, 0⟩ blankMem).2

/-- The disk is cut up, a file system is started, and given a micropartition. -/
def cutUp : MicroOp := .init 0 0 0
def startFs : MicroOp := .bootfs 0 0 0 5 blankMem
def give (upart : BitVec 32) : MicroOp := .alloc 0 0 upart 0 5
def diskCut : Kernel := (cutUp.exec diskKernel).getD diskKernel
def fsStarted : Kernel := (startFs.exec diskCut).getD diskKernel
def fsGiven (upart : BitVec 32) : Kernel := ((give upart).exec fsStarted).getD diskKernel

theorem diskKernel_unloaded : diskKernel.Unloaded where
  page := bootMem_pageInv 8 (by decide) _
  fresh p hp := by
    have hne : p ≠ 0 := Nat.pos_iff_ne_zero.mp hp
    show Function.update (fun _ => none) 0 (some (_ : Pxn)) p = none
    rw [Function.update_of_ne hne]
  none _ := rfl

/-- Micropartition 1 given to file system 5: its pxn holds the blocks, and no other does. -/
theorem micropart_exclusive_given :
    XtntAt (fsGiven 1).pxn (1, 0) ⟨.xtnt, ⟨131072, 131072⟩, none, 0⟩ ∧
      Exclusive 1 (fsGiven 1) := by
  have h₁ : MicroOp.exec diskKernel cutUp = some diskCut := rfl
  have h₂ : MicroOp.exec diskCut startFs = some fsStarted := rfl
  have h₃ : MicroOp.exec fsStarted (give 1) = some (fsGiven 1) := rfl
  have hcut : cutUp.Careful 1 diskKernel := by
    refine ⟨?_, fun _ => ⟨by decide, by decide, by decide⟩⟩
    rintro ⟨p, P, -, -, hp, hP, -⟩
    rw [diskKernel_unloaded.fresh p hp] at hP
    cases hP
  have hstart : startFs.Careful 1 diskCut := by
    refine ⟨fun h => (nomatch h.1), fun junk hj i => ?_⟩
    cases hj
    rfl
  have hgive : (give 1).Careful 1 fsStarted := by
    refine ⟨by decide, fun p P c _ hl hP hc e he hv => ?_⟩
    obtain rfl : 1 = p := some.inj hl
    obtain rfl : _ = P := some.inj hP
    obtain rfl : rootCap = c := Except.ok.inj hc
    -- of the six entries of the lists only the two first ones are valid
    have hacl : ∀ e ∈ (Pxn.acls ⟨fsName 0 5, [.ofCap rootCap.1, .ofCap Cap.null, .ofCap Cap.null],
        [.ofCap rootCap.1, .ofCap Cap.null, .ofCap Cap.null], [], 1, false⟩),
        e.cap.valid = true → capDominates e.cap rootCap.1 = true := by
      simp only [Pxn.acls, List.mem_append, List.mem_cons, List.not_mem_nil, or_false]
      rintro e ((rfl | rfl | rfl) | (rfl | rfl | rfl)) <;> decide
    exact hacl e he hv
  exact ⟨⟨rfl, rfl⟩, micropart_exclusive_of_careful diskKernel_unloaded
    (((Run.Reaches.refl.call (i := cutUp) hcut h₁).call (i := startFs) hstart h₂).call
      (i := give 1) hgive h₃)⟩

/-- **The first micropartition is given away** like any other, freemap and all: the extent
    starts at block 0 of the disk. -/
theorem micropart_zero_given :
    Run.Reaches (fun k op k' => MicroOp.exec k op = some k') (fun _ _ => True) diskKernel
        (fsGiven 0) ∧
      ¬Exclusive 1 (fsGiven 0) := by
  have h₁ : MicroOp.exec diskKernel cutUp = some diskCut := rfl
  have h₂ : MicroOp.exec diskCut startFs = some fsStarted := rfl
  have h₃ : MicroOp.exec fsStarted (give 0) = some (fsGiven 0) := rfl
  refine ⟨((Run.Reaches.refl.call (i := cutUp) trivial h₁).call (i := startFs) trivial h₂).call
    (i := give 0) trivial h₃, fun hex => hex.reserved 0 1 ?_⟩
  refine ⟨_, 0, ⟨.xtnt, ⟨0, 131072⟩, none, 0⟩, 0, le_rfl, rfl, rfl, ⟨rfl, rfl⟩, ?_, ?_⟩
  · exact ⟨le_rfl, by decide⟩
  · exact ⟨Nat.le_of_eq (Nat.zero_mul _), by decide⟩

end Exokernel
