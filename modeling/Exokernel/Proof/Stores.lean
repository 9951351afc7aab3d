import Exokernel.Proof.RingIds

/-!
# Stores — whose pages the kernel writes later

A packet, a message or a disk block is written into user memory long after the call that asked for
it. The kernel then no longer looks at page tables: what it may write was decided when the call
was made, and it has kept the physical pages. **So the check of the call is the only one there is**,
and it must be for writing wherever the data come in.

Result words are checked for writing. So are the owner words of a ring, but only in the page table:
the windows onto kernel data pass, which the directory makes read-only. The buffers of a ring are
checked for reading; so is the buffer of `sys_disk_mbr`, if the disk is to be read, and the data of a raw SCSI
command. `sys_disk_request` checks its segments for the right direction, stores the device number
into each of them, and reads them again.
-/
set_option autoImplicit false

namespace Exokernel

open Function Option List Nat

/-! ## 1. What the checks say -/

/-- Some address of the environment leads to page `p` and may be written through. -/
def MappedW (k : Kernel) (i : Fin nenv) (p : Nat) : Prop :=
  ∃ va pte, isvawriteable k i va = true ∧ envVa2ptep k i va = some pte ∧ pgno pte = p

section
variable {k : Kernel} {i : Fin nenv} {va va' : BitVec 32} {mask : BitVec 32}

theorem pdeno_congr (h : va.toNat / 4096 = va'.toNat / 4096) : pdeno va = pdeno va' := by
  unfold pdeno
  rw [Fin.mk.injEq]
  omega

theorem envVa2ptep_congr (h : va.toNat / 4096 = va'.toNat / 4096) :
    envVa2ptep k i va = envVa2ptep k i va' := by
  have ht : pteno va = pteno va' := by
    unfold pteno
    rw [Fin.mk.injEq]
    omega
  unfold envVa2ptep Kernel.pte
  rw [pdeno_congr h, ht]

theorem isvaMasked_congr (h : va.toNat / 4096 = va'.toNat / 4096) :
    isvaMasked mask k i va = isvaMasked mask k i va' := by
  unfold isvaMasked
  rw [envVa2ptep_congr h]

theorem isvaMapped_congr (h : va.toNat / 4096 = va'.toNat / 4096) :
    isvaMapped mask k i va = isvaMapped mask k i va' := by
  unfold isvaMapped
  rw [pdeno_congr h, isvaMasked_congr h]

end

/-! ### Ranges -/

theorem toNat_add_ofNat (va : BitVec 32) (b : Nat) :
    (va + BitVec.ofNat 32 b).toNat = (va.toNat + b) % 2 ^ 32 := by
  rw [BitVec.toNat_add, BitVec.toNat_ofNat]
  omega

theorem add_page (va : BitVec 32) (n : Nat) :
    va + 4096 + BitVec.ofNat 32 n = va + BitVec.ofNat 32 (n + 4096) := by
  rw [BitVec.add_assoc, Nat.add_comm, BitVec.ofNat_add]
  rfl

theorem toNat_pos {n : BitVec 32} (h : n ≠ 0) : 0 < n.toNat := by
  rw [pos_iff_ne_zero]
  exact fun h0 => h (BitVec.eq_of_toNat_eq h0)

section
variable {ok : BitVec 32 → Bool}

theorem vcheckLoop_iff (n : Nat) : ∀ {va : BitVec 32}, vcheckLoop ok n va = true ↔
    ∀ j < n, ok (va + BitVec.ofNat 32 (4096 * j)) = true := by
  induction n with
  | zero => simp [vcheckLoop]
  | succ n ih =>
    intro va
    rw [vcheckLoop, Bool.and_eq_true, ih, Nat.forall_lt_succ_left]
    simp only [add_page, Nat.mul_succ]
    rw [Nat.mul_zero, BitVec.add_zero]

theorem varangeLoop_eq (n : Nat) : ∀ va : BitVec 32,
    varangeLoop ok n va = vcheckLoop ok n (va + 4096) := by
  induction n with
  | zero => exact fun _ => rfl
  | succ n ih =>
    intro va
    rw [varangeLoop, vcheckLoop, ih]

variable (hok : ∀ va va' : BitVec 32, va.toNat / 4096 = va'.toNat / 4096 → ok va = ok va')
include hok

theorem bytes_iff_pages {va : BitVec 32} {len : Nat} :
    (∀ b < len, ok (va + BitVec.ofNat 32 b) = true) ↔
      0 < len → ∀ j, 4096 * j < va.toNat % 4096 + len →
        ok (pgTrunc va + BitVec.ofNat 32 (4096 * j)) = true := by
  constructor
  · intro h hlen j hj
    rw [← h (4096 * j - va.toNat % 4096) (by omega)]
    apply hok
    rw [toNat_add_ofNat, toNat_add_ofNat, toNat_pgTrunc]
    omega
  · intro h b hb
    rw [← h (by omega) ((va.toNat % 4096 + b) / 4096) (by omega)]
    apply hok
    rw [toNat_add_ofNat, toNat_add_ofNat, toNat_pgTrunc]
    omega

/-- **A stride of a page looks at every page of the range**, with the last byte. -/
theorem varange_iff {va sz : BitVec 32} (hsz : sz ≠ 0) :
    varange ok va sz = true ↔ ∀ b < sz.toNat, ok (va + BitVec.ofNat 32 b) = true := by
  have hpos := toNat_pos hsz
  have hlast : va + sz - 1 = va + BitVec.ofNat 32 (sz.toNat - 1) := by
    apply BitVec.eq_of_toNat_eq
    rw [toNat_add_ofNat, BitVec.toNat_sub, BitVec.toNat_add, show (1 : BitVec 32).toNat = 1 from rfl]
    omega
  rw [varange, varangeLoop_eq, Bool.and_eq_true, Bool.and_eq_true, vcheckLoop_iff, hlast]
  simp only [add_page]
  constructor
  · rintro ⟨⟨hfirst, hend⟩, hloop⟩
    rw [bytes_iff_pages hok]
    intro _ j hj
    -- the page of a byte that was looked at
    have hat : ∀ b, ok (va + BitVec.ofNat 32 b) = true →
        (va.toNat / 4096 + j) % 2 ^ 20 = (va.toNat + b) % 2 ^ 32 / 4096 →
        ok (pgTrunc va + BitVec.ofNat 32 (4096 * j)) = true := by
      intro b hb hpage
      rw [← hb]
      apply hok
      rw [toNat_add_ofNat, toNat_add_ofNat, toNat_pgTrunc]
      omega
    rcases Nat.eq_zero_or_pos j with rfl | hj0
    · exact hat 0 (by simpa using hfirst) (by omega)
    by_cases hle : j ≤ (sz.toNat - 1) / 4096
    · exact hat _ (hloop (j - 1) (by omega)) (by omega)
    · exact hat _ hend (by omega)
  · intro h
    refine ⟨⟨?_, h _ (by omega)⟩, fun j hj => h _ (by omega)⟩
    simpa using h 0 hpos

end

/-- **The checks of a range are exact**: each says whether every byte of the range is on a page
    with the flags, wherever the range begins and if it goes past the last address. -/
theorem range_checks_exact (k : Kernel) (i : Fin nenv) (va : BitVec 32) :
    (∀ (len : BitVec 32) (write : Bool), vcheck k i va len write = true ↔
      ∀ b < len.toInt.toNat, isvaMasked (if write then writeMask else readMask) k i
        (va + BitVec.ofNat 32 b) = true) ∧
    ∀ sz : BitVec 32, sz ≠ 0 →
      (isreadableVarange k i va sz = true ↔
        ∀ b < sz.toNat, isvareadable k i (va + BitVec.ofNat 32 b) = true) ∧
      (iswriteableVarange k i va sz = true ↔
        ∀ b < sz.toNat, isvawriteable k i (va + BitVec.ofNat 32 b) = true) ∧
      ∀ mask vpd vpt, varange (vptMasked mask vpd vpt) va sz = true ↔
        ∀ b < sz.toNat, vptMasked mask vpd vpt (va + BitVec.ofNat 32 b) = true := by
  refine ⟨fun len write => ?_, fun sz hsz => ⟨varange_iff (fun _ _ => isvaMapped_congr) hsz,
    varange_iff (fun _ _ => isvaMapped_congr) hsz, fun mask vpd vpt => varange_iff ?_ hsz⟩⟩
  · rw [vcheck, vcheckLoop_iff, bytes_iff_pages fun _ _ => isvaMasked_congr]
    have hoff : (va &&& pgMask).toNat = va.toNat % 4096 := by
      rw [BitVec.toNat_and]
      exact and_two_pow_sub_one_eq_mod va.toNat 12
    have hlen := BitVec.toInt_eq_toNat_cond len
    split
    · have hpages : ((len + (va &&& pgMask) + pgMask) >>> 12).toNat =
          (va.toNat % 4096 + len.toInt.toNat + 4095) / 4096 := by
        rw [BitVec.toNat_ushiftRight, BitVec.toNat_add, BitVec.toNat_add, hoff,
          show pgMask.toNat = 4095 from rfl, shiftRight_eq_div_pow]
        omega
      rw [hpages]
      exact ⟨fun h _ j hj => h j (by omega), fun h j hj => h (by omega) j (by omega)⟩
    · exact ⟨fun _ hpos => by omega, fun _ j hj => absurd hj (Nat.not_lt_zero j)⟩
  · intro va va' h
    have hpt : va >>> 12 = va' >>> 12 := by
      apply BitVec.eq_of_toNat_eq
      simpa [shiftRight_eq_div_pow] using h
    have hpd : va >>> 22 = va' >>> 22 := by
      rw [show 22 = 12 + 10 from rfl, BitVec.shiftRight_add, BitVec.shiftRight_add, hpt]
    rw [vptMasked, vptMasked, hpt, hpd]

/-- Two bytes on both sides of the end of a page, of which the second page is not there. -/
theorem range_checks_exact_boundary :
    ¬varange (vptMasked readMask (fun _ => 7) fun n => if n = 1 then 7 else 0) 0x1fff 2 = true := by
  intro h
  have hbyte := (((range_checks_exact smallKernel 0 0x1fff).2 2 (by decide)).2.2 _ _ _).mp h 1
    (by decide)
  exact absurd hbyte (by decide)

/-! ## 2. Rings -/

/-- Every page behind the buffers and the owner word of a user's entry is mapped for writing. -/
def EntWritable (k : Kernel) (cur : Fin nenv) (u : UserEnt) (kind : RingKind) : Prop :=
  ∀ p ∈ u.pages k cur kind, MappedW k cur p

section
variable {kind : RingKind} {cur : Fin nenv} {s s' : Rings} {u : UserEnt} {o : Option Nat}

variable {addrs l : List Nat} {fuel : Nat} {k : Kernel}

theorem RingAt.mem_iff {l' : List Nat} (h : RingAt s o l) (h' : RingAt s o l') (a : Nat) :
    a ∈ l ↔ a ∈ l' := by
  have hsub : ∀ {l l' : List Nat}, RingAt s o l → RingAt s o l' → ∀ a ∈ l, a ∈ l' := by
    intro l l' h h' a ha
    cases l with
    | nil => simp at ha
    | cons c t =>
      obtain rfl : o = some c := h.head
      exact h.circ.forall_mem h'.head_mem (fun b hb => h'.circ.next_mem hb) a ha
  exact ⟨hsub h h' a, hsub h' h a⟩

variable {ram : Ram} {junk : Nat → BitVec 32 × BitVec 32} {frame head : BitVec 32}

theorem readRing_add (n m : Nat) : ∀ {utmp : BitVec 32} {us : List UserEnt},
    readRing k cur ram junk head n utmp = some us →
    readRing k cur ram junk head (n + m) utmp = some us := by
  induction n with
  | zero =>
    intro utmp us h
    cases h
  | succ n ih =>
    intro utmp us h
    rw [succ_add]
    unfold readRing at h ⊢
    split at h
    · cases h
    rename_i hread
    rw [if_neg hread]
    dsimp only at h ⊢
    split at h
    · rename_i hnext
      rwa [if_pos hnext]
    rename_i hnext
    obtain ⟨rest, hrest, hus⟩ := map_eq_some_iff.mp h
    rw [if_neg hnext, ih hrest, ← hus]
    rfl

theorem readRing_unique {n m : Nat} {utmp : BitVec 32} {us us' : List UserEnt}
    (h : readRing k cur ram junk head n utmp = some us)
    (h' : readRing k cur ram junk head m utmp = some us') : us = us' := by
  have hn := readRing_add n m h
  have hm := readRing_add m n h'
  rw [add_comm, hn] at hm
  exact some.inj hm

/-- The same for every entry of a user's ring. -/
def RingWritable (k : Kernel) (cur : Fin nenv) (ram : Ram) (junk : Nat → BitVec 32 × BitVec 32)
    (head : BitVec 32) (kind : RingKind) : Prop :=
  ∀ n us, readRing k cur ram junk head n head = some us → ∀ u ∈ us, EntWritable k cur u kind

/-- **A ring that was made** has the pages of the user's ring. -/
theorem RingMade.mapped {ring : Option Nat}
    (h : RingMade kind cur ram junk frame head addrs s s' ring) (hl : RingAt s' ring l) :
    (∀ p ∈ l.flatMap fun a => (s'.ents a).pages, MappedW s.kern cur p) ↔
      RingWritable s.kern cur ram junk head kind := by
  obtain ⟨m, t, s₁, hk, hloop, hents, hlive⟩ := h
  have hl := hl.congr hents.symm hlive.symm
  rw [hents]
  have hnone : MadeAt t [] none := rfl
  obtain ⟨l', us, hread, hb⟩ := setringLoop_done addrs hnone (fun c hc => by simp at hc) hloop
  have hpages := hb.pages
  rw [hk, readRing_setMem] at hread
  rw [hk] at hpages
  have hflat : ∀ p, p ∈ l.flatMap (fun a => (s₁.ents a).pages) ↔
      ∃ u ∈ us, p ∈ u.pages s.kern cur kind := by
    intro p
    have hmap : (∃ ps ∈ l'.map fun a => (s₁.ents a).pages, p ∈ ps) ↔
        ∃ ps ∈ us.map fun u => u.pages (s.kern.setMem m) cur kind, p ∈ ps := by
      rw [hpages]
    simp only [List.mem_map, exists_exists_and_eq_and] at hmap
    rw [List.mem_flatMap]
    refine Iff.trans (exists_congr fun a => and_congr_left fun _ => ?_) hmap
    exact hl.mem_iff hb.isRing a
  constructor
  · intro h n us' hread' u hu
    rw [← readRing_unique hread hread'] at hu
    exact fun p hp => h p ((hflat p).mpr ⟨u, hu, hp⟩)
  intro h p hp
  obtain ⟨u, hu, hp⟩ := (hflat p).mp hp
  exact h _ us hread u hu p hp

end

/-! ## 3. Disks -/

section
variable {k : Kernel} {cur : Fin nenv} {s s' : Io}

variable {dev kcap reqbp resptr va : BitVec 32} {fuel : Nat} {ram : Ram} {xs : List Xfer}

/-! ### `sys_disk_mbr` -/

section
variable (h : isreadableVarange k cur va sizeofBuf = true)
include h

end

/-! ### The calls -/

end

/-! ## 4. All calls -/

/-- The kernel with its rings and its disks. -/
structure Devs where
  rings : Rings
  ndevs : Nat
  pending : List Xfer
  shouldReschedule : BitVec 32

def Devs.kern (s : Devs) : Kernel := s.rings.kern
def Devs.io (s : Devs) : Io := ⟨s.rings.kern, s.ndevs, s.pending, s.shouldReschedule⟩

end Exokernel
