import Exokernel.Kern.Micropart
import Exokernel.Proof.FreePages
import Exokernel.Proof.PxnNames

/-!
# Micropartitions — who owns what, written down twice

The freemap says that a micropartition belongs to a file system; an extent in the file
system's pxn lets it use the blocks. `Exclusive` is what the two records should add up to:
one owner for each micropartition, the one the freemap names, and none for the first.

`MicroInv` is why they would: every extent of a pxn made since the start is one the freemap
grants. It needs the freemap to stay where it is, which is a matter of pages: **the page is
pinned, and the allocator never takes a pinned page**.
-/
set_option autoImplicit false

namespace Exokernel

open BitVec Nat

/-! ## 1. The page a freemap is in -/

/-- The header of a loaded partition is pinned down in the cache, under the partition's own
    device. -/
structure HeaderOk (m : Mem) (part : Nat) (mp : Micropart) : Prop where
  cached : Cached m mp.bc
  dev : (m.bufs mp.bc).dev.toNat = part
  ppn : (m.bufs mp.bc).ppn = mp.header
  pinned : (m.pages mp.header).pinned ≠ 0

section
variable {m m' : Mem} {part part' : Nat} {mp mp' : Micropart}

section

variable (h : HeaderOk m part mp)
include h

theorem HeaderOk.ne (h' : HeaderOk m part' mp') (hinv : PageInv m)
    (hne : part ≠ part') : mp.header ≠ mp'.header := by
  intro he
  have hb := (hinv.cache.pageBuf mp.header (h.ppn ▸ hinv.cache.ppnLt _ h.cached) mp.bc).mpr
    ⟨h.cached, h.ppn⟩
  have hb' := (hinv.cache.pageBuf mp'.header (h'.ppn ▸ hinv.cache.ppnLt _ h'.cached) mp'.bc).mpr
    ⟨h'.cached, h'.ppn⟩
  rw [he, hb'] at hb
  exact hne (by rw [← h.dev, ← h'.dev, Option.some.inj hb])

/-- Only pins and dirty bits moved, and the header's page is still pinned. -/
theorem HeaderOk.sameKeys (hq : m'.bcQs = m.bcQs)
    (hdev : ∀ b, (m'.bufs b).dev = (m.bufs b).dev)
    (hblk : ∀ b, (m'.bufs b).blk64 = (m.bufs b).blk64)
    (hppn : ∀ b, (m'.bufs b).ppn = (m.bufs b).ppn)
    (hpin : (m'.pages mp.header).pinned ≠ 0) : HeaderOk m' part mp where
  cached := by rw [Cached, hdev, hblk, hq]; exact h.cached
  dev := by rw [hdev, h.dev]
  ppn := by rw [hppn, h.ppn]
  pinned := hpin

theorem HeaderOk.pin (p : Nat) : HeaderOk (ppagePin m p) part mp := by
  refine h.sameKeys rfl (fun _ => rfl) (fun _ => rfl) (fun _ => rfl) ?_
  have := h.pinned
  by_cases hp : mp.header = p
  · simp [ppagePin, Mem.modPage, hp]
  · simpa [ppagePin, Mem.modPage, hp] using this

theorem HeaderOk.setDirty (b : Nat) :
    HeaderOk (bcSetDirty m b) part mp := by
  unfold bcSetDirty
  split
  · refine h.sameKeys rfl ?_ ?_ ?_ h.pinned <;>
    · intro c
      by_cases hc : c = b
      · subst hc; simp [Mem.modBuf]
      · simp [Mem.modBuf, hc]
  · exact h

theorem HeaderOk.unpin {p : Nat} (hp : mp.header ≠ p) :
    HeaderOk (ppageUnpin m p) part mp := by
  have := h.pinned
  obtain ⟨_, he⟩ := m.assert_eq (decide (0 < (m.pages p).pinned))
  rw [ppageUnpin, he]
  refine h.sameKeys rfl (fun _ => rfl) (fun _ => rfl) (fun _ => rfl) ?_
  simpa [Mem.modPage, hp] using this

/-- Room is found for another buffer: never in a pinned page. -/
theorem HeaderOk.getReclaimableBuffer (hinv : PageInv m)
    {dev : BitVec 32} {blk : BitVec 64} {state : BitVec 8} {userreq : Bool}
    {r : Except Errno Nat} (heq : ppageGetReclaimableBuffer m dev blk state userreq = (r, m')) :
    HeaderOk m' part mp ∧ ∀ b, r = .ok b → (m'.bufs b).ppn ≠ mp.header := by
  obtain ⟨hinv', hframe, hold, hnew⟩ := ppageGetReclaimableBuffer_inv hinv heq
  have hpage := hframe.pinned h.pinned
  have hlt : mp.header < m.nppage := h.ppn ▸ hinv.cache.ppnLt _ h.cached
  have hother : ∀ b, r = .ok b → (m'.bufs b).ppn ≠ mp.header := by
    intro b hb he
    obtain ⟨-, -, -, -, -, hpin, -⟩ := hnew b hb
    exact h.pinned (he ▸ hpin)
  have hbuf : (m'.pages mp.header).buf = some mp.bc := by
    rw [hpage]
    exact (hinv.cache.pageBuf _ hlt _).mpr ⟨h.cached, h.ppn⟩
  obtain ⟨hcached, hppn⟩ := (hinv'.cache.pageBuf _ (hframe.nppage ▸ hlt) _).mp hbuf
  refine ⟨⟨hcached, ?_, hppn, by rw [hpage]; exact h.pinned⟩, hother⟩
  rcases hold mp.bc hcached with hr | ⟨-, hsame⟩
  · exact absurd hppn (hother mp.bc hr.symm)
  · rw [hsame, h.dev]

end

theorem PageInv.pin (h : PageInv m) (p : Nat) : PageInv (ppagePin m p) :=
  h.modPage p (fun _ => rfl) fun _ => rfl

theorem PageInv.unpin (h : PageInv m) (p : Nat) : PageInv (ppageUnpin m p) :=
  (h.setPanicked _).modPage p (fun _ => rfl) fun _ => rfl

theorem bcLookup64_some (h : CacheOk m) {dev : BitVec 32} {blk : BitVec 64} {b : Nat}
    (hb : bcLookup64 m dev blk = some b) :
    Cached m b ∧ (m.bufs b).dev = dev ∧ (m.bufs b).blk64 = blk := by
  have hkey := List.find?_some hb
  simp only [Bool.and_eq_true, decide_eq_true_eq] at hkey
  exact ⟨h.cached_iff (List.mem_of_find?_eq_some hb), hkey.2, hkey.1⟩

end

/-! ## 2. The two records -/

/-- A geometry without overflow, and a freemap that stays in its page. -/
structure Sane (num sz : BitVec 32) : Prop where
  pos : 0 < sz.toNat
  fits : sz.toNat * num.toNat < 2 ^ 32
  page : 24 + 12 * num.toNat ≤ 4096

/-- Block `blk` of the disk belongs to micropartition `i`. -/
def InMicropart (h : MicropartHeader) (i blk : Nat) : Prop :=
  i * h.micropartSz.toNat ≤ blk ∧ blk < (i + 1) * h.micropartSz.toNat

def Xtnt.Covers (x : Xtnt) (blk : Nat) : Prop :=
  x.block.toNat ≤ blk ∧ blk < x.block.toNat + x.size.toNat

section
variable {h : MicropartHeader} {i : BitVec 32}

theorem Sane.block_toNat (hs : Sane h.numMicroparts h.micropartSz) (hi : i < h.numMicroparts) :
    (micropartXtnt h i).block.toNat = i.toNat * h.micropartSz.toNat ∧
      i.toNat * h.micropartSz.toNat + h.micropartSz.toNat < 2 ^ 32 := by
  have hle : (i.toNat + 1) * h.micropartSz.toNat ≤ h.numMicroparts.toNat * h.micropartSz.toNat :=
    mul_le_mul_right _ (lt_def.mp hi)
  have hfits := hs.fits
  rw [Nat.mul_comm] at hfits
  rw [Nat.succ_mul] at hle
  refine ⟨?_, by omega⟩
  simp only [micropartXtnt, toNat_setWidth, toNat_mul]
  rw [mul_comm h.micropartSz.toNat, mod_eq_of_lt (by omega), mod_eq_of_lt (by omega)]

theorem micropartXtnt_size : (micropartXtnt h i).size.toNat = h.micropartSz.toNat := by
  have := h.micropartSz.isLt
  simp only [micropartXtnt, toNat_setWidth]
  omega

theorem Sane.covers (hs : Sane h.numMicroparts h.micropartSz) (hi : i < h.numMicroparts)
    {j blk : Nat} (hc : (micropartXtnt h i).Covers blk) (hj : InMicropart h j blk) :
    j = i.toNat := by
  obtain ⟨hblock, -⟩ := hs.block_toNat hi
  obtain ⟨hlo, hhi⟩ := hc
  rw [hblock] at hlo hhi
  rw [micropartXtnt_size, ← Nat.succ_mul] at hhi
  have hlt₁ : j < i.toNat + 1 := Nat.lt_of_mul_lt_mul_right (hj.1.trans_lt hhi)
  have hlt₂ : i.toNat < j + 1 := Nat.lt_of_mul_lt_mul_right (hlo.trans_lt hj.2)
  omega

/-- A micropartition's extent contains itself, which `pxn_remove_xtnt` needs. -/
theorem Sane.dominates_self (hs : Sane h.numMicroparts h.micropartSz) (hi : i < h.numMicroparts) :
    xtntDominates (micropartXtnt h i) (micropartXtnt h i) = true := by
  obtain ⟨hblock, hlt⟩ := hs.block_toNat hi
  have hpos := hs.pos
  have hsize := micropartXtnt_size (h := h) (i := i)
  simp only [xtntDominates, Bool.and_eq_true, decide_eq_true_eq, le_def, lt_def,
    toNat_add, hblock, hsize]
  omega

end

/-- The freemap grants micropartition `i` to the pxn of that name and those lists. -/
structure Granted (h : MicropartHeader) (n : XnName) (acls : List AclEntry) (i : BitVec 32) :
    Prop where
  pos : i ≠ 0
  lt : i < h.numMicroparts
  valid : (h.freemap i.toNat).cap.valid = true
  name : n.name = (h.freemap i.toNat).id.setWidth 64
  dominates : ∀ e ∈ acls, e.cap.valid = true →
    capDominates e.cap (h.freemap i.toNat).cap = true

theorem Granted.setFsid_ne {h : MicropartHeader} {n : XnName} {acls : List AclEntry}
    {i j : BitVec 32} (hg : Granted h n acls i) (hne : i ≠ j) (f : Fsid) :
    Granted (h.setFsid j.toNat f) n acls i := by
  have hsame : (h.setFsid j.toNat f).freemap i.toNat = h.freemap i.toNat :=
    Function.update_of_ne (fun he => hne (eq_of_toNat_eq he)) _ _
  exact ⟨hg.pos, hg.lt, hsame ▸ hg.valid, hsame ▸ hg.name, hsame ▸ hg.dominates⟩

/-- The extent is that of a micropartition of the pxn's disk, which is loaded, and granted. -/
def Kernel.Owned (k : Kernel) (n : XnName) (acls : List AclEntry) (x : Xtnt) : Prop :=
  (k.micropart n.dev.toNat).loaded = true ∧
    ∃ i, Granted (k.header n.dev.toNat) n acls i ∧ x = micropartXtnt (k.header n.dev.toNat) i

/-- The invariant of the runs. -/
structure MicroInv (n₀ : Nat) (k : Kernel) : Prop where
  page : PageInv k.mem
  header : ∀ part, (k.micropart part).loaded = true → HeaderOk k.mem part (k.micropart part) ∧
    Sane (k.header part).numMicroparts (k.header part).micropartSz
  own : OwnInv n₀ k.Owned k.pxn

/-- Pxn `p`, made in the run, holds an extent that covers blocks of micropartition `i`. -/
def HoldsPart (n₀ : Nat) (k : Kernel) (part i p : Nat) : Prop :=
  ∃ P j b blk, n₀ ≤ p ∧ k.pxn.pxns p = some P ∧ P.name.dev.toNat = part ∧
    XtntAt k.pxn (p, j) b ∧ b.xtnt.Covers blk ∧ InMicropart (k.header part) i blk

/-- **Ownership is exclusive.** -/
structure Exclusive (n₀ : Nat) (k : Kernel) : Prop where
  one : ∀ part i p q, HoldsPart n₀ k part i p → HoldsPart n₀ k part i q → p = q
  owned : ∀ part i p P, HoldsPart n₀ k part i p → k.pxn.pxns p = some P →
    (k.micropart part).loaded = true ∧ ((k.header part).freemap i).cap.valid = true ∧
      P.name = fsName P.name.dev ((k.header part).freemap i).id ∧
      ∀ e ∈ P.acls, e.cap.valid = true → capDominates e.cap ((k.header part).freemap i).cap = true
  reserved : ∀ part p, ¬HoldsPart n₀ k part 0 p

/-- What the invariant says of a pxn that holds blocks of micropartition `i`. -/
theorem MicroInv.granted {n₀ : Nat} {k : Kernel} (h : MicroInv n₀ k) {part i p : Nat} {P : Pxn}
    (hp : HoldsPart n₀ k part i p) (hP : k.pxn.pxns p = some P) :
    n₀ ≤ p ∧ P.name.dev.toNat = part ∧ (k.micropart part).loaded = true ∧
      ∃ j : BitVec 32, j.toNat = i ∧ Granted (k.header part) P.name P.acls j := by
  obtain ⟨P', j, b, blk, hge, hP', rfl, hb, hcov, hin⟩ := hp
  obtain rfl : P = P' := Option.some.inj (hP.symm.trans hP')
  obtain ⟨hload, l, hgr, hx⟩ := h.own.own p P j b hge hP hb
  rw [hx] at hcov
  exact ⟨hge, rfl, hload, l, ((h.header _ hload).2.covers hgr.lt hcov hin).symm, hgr⟩

theorem MicroInv.exclusive {n₀ : Nat} {k : Kernel} (h : MicroInv n₀ k) : Exclusive n₀ k where
  one part i p q hp hq := by
    obtain ⟨P, -, -, -, -, hP, -⟩ := id hp
    obtain ⟨Q, -, -, -, -, hQ, -⟩ := id hq
    obtain ⟨hpge, hpdev, -, j, hj, hpg⟩ := h.granted hp hP
    obtain ⟨hqge, hqdev, -, l, hl, hqg⟩ := h.granted hq hQ
    obtain rfl : j = l := eq_of_toNat_eq (hj.trans hl.symm)
    -- the freemap's entry names them both, and no two pxns have one name
    have hname : P.name = Q.name :=
      XnName.ext (eq_of_toNat_eq (hpdev.trans hqdev.symm)) (hpg.name.trans hqg.name.symm)
    exact h.own.unique p P q Q hpge hP (h.own.cached q Q hqge hQ) hQ hname
  owned part i p P hp hP := by
    obtain ⟨-, -, hload, j, rfl, hg⟩ := h.granted hp hP
    refine ⟨hload, hg.valid, ?_, hg.dominates⟩
    rw [fsName, ← hg.name]
  reserved part p hp := by
    obtain ⟨P, -, -, -, -, hP, -⟩ := id hp
    obtain ⟨-, -, -, j, hj, hg⟩ := h.granted hp hP
    exact hg.pos (eq_of_toNat_eq hj)

/-! ## 3. Updates of the invariant -/

theorem Kernel.modHeader_header (k : Kernel) (part : Nat) (f : MicropartHeader → MicropartHeader) :
    (k.modHeader part f).header part = f (k.header part) := by
  simp [Kernel.modHeader, Kernel.header]

/-- Some pxn made in the run holds an extent of the disk. -/
def Occupied (n₀ : Nat) (k : Kernel) (part : Nat) : Prop :=
  ∃ p P i b, n₀ ≤ p ∧ k.pxn.pxns p = some P ∧ P.name.dev.toNat = part ∧ XtntAt k.pxn (p, i) b

namespace MicroInv

variable {n₀ : Nat} {k k' : Kernel} {part : Nat}

variable (h : MicroInv n₀ k)
include h

theorem setMem {m : Mem} (hm : PageInv m)
    (hh : ∀ q, (k.micropart q).loaded = true → HeaderOk m q (k.micropart q)) :
    MicroInv n₀ (k.setMem m) :=
  ⟨hm, fun q hq => ⟨hh q hq, (h.header q hq).2⟩, h.own⟩

theorem setPxn {s : PxnState} (hs : OwnInv n₀ k.Owned s) :
    MicroInv n₀ (k.setPxn s) :=
  ⟨h.page, h.header, hs⟩

theorem replace (part : Nat) (hmem : k'.mem = k.mem) (hpxn : k'.pxn = k.pxn)
    (hmp : ∀ q, q ≠ part → k'.micropart q = k.micropart q)
    (hhd : ∀ q, q ≠ part → (k.micropart q).loaded = true → k'.header q = k.header q)
    (hpart : (k'.micropart part).loaded = true → HeaderOk k.mem part (k'.micropart part) ∧
      Sane (k'.header part).numMicroparts (k'.header part).micropartSz)
    (hown : ∀ p P i b, n₀ ≤ p → k.pxn.pxns p = some P → XtntAt k.pxn (p, i) b →
      P.name.dev.toNat = part → k.Owned P.name P.acls b.xtnt → k'.Owned P.name P.acls b.xtnt) :
    MicroInv n₀ k' where
  page := hmem ▸ h.page
  header q hq := by
    rw [hmem]
    by_cases hqp : q = part
    · subst hqp; exact hpart hq
    rw [hmp q hqp] at hq ⊢
    rw [hhd q hqp hq]
    exact h.header q hq
  own := by
    rw [hpxn]
    refine h.own.mono fun p P i b hp hP hb hold => ?_
    by_cases hdev : P.name.dev.toNat = part
    · exact hown p P i b hp hP hb hdev hold
    obtain ⟨hload, l, hg, hx⟩ := hold
    have hsame := hhd _ hdev hload
    exact ⟨by rw [hmp _ hdev]; exact hload, l, hsame ▸ hg, hsame ▸ hx⟩

/-- A freemap is written to. The grants that extents rest on have to survive. -/
theorem modHeader (hload : (k.micropart part).loaded = true)
    {f : MicropartHeader → MicropartHeader}
    (hnum : ∀ hd, (f hd).numMicroparts = hd.numMicroparts)
    (hsz : ∀ hd, (f hd).micropartSz = hd.micropartSz)
    (hg : ∀ p P i b l, n₀ ≤ p → k.pxn.pxns p = some P → XtntAt k.pxn (p, i) b →
      P.name.dev.toNat = part → b.xtnt = micropartXtnt (k.header part) l →
      Granted (k.header part) P.name P.acls l → Granted (f (k.header part)) P.name P.acls l) :
    MicroInv n₀ (k.modHeader part f) := by
  have hself := k.modHeader_header part f
  refine h.replace part rfl rfl (fun _ _ => rfl) (fun q hq hql => ?_) (fun _ => ?_)
    fun p P i b hp hP hb hdev hold => ?_
  · have hne := (h.header q hql).1.ne (h.header part hload).1 h.page hq
    simp [Kernel.modHeader, Kernel.header, hne]
  · rw [hself, hnum, hsz]
    exact h.header part hload
  obtain ⟨-, l, hgr, hx⟩ := hold
  rw [hdev] at hgr hx
  refine ⟨by rw [hdev]; exact hload, l, ?_, ?_⟩
  · rw [hdev, hself]
    exact hg p P i b l hp hP hb hdev hx hgr
  · rw [hdev, hself, hx, micropartXtnt, micropartXtnt, hsz]

theorem setMicropart (hno : ¬Occupied n₀ k part) {mp : Micropart}
    (hmp : mp.loaded = true → HeaderOk k.mem part mp ∧
      Sane (k.headers mp.header).numMicroparts (k.headers mp.header).micropartSz) :
    MicroInv n₀ (k.setMicropart part mp) := by
  refine h.replace part rfl rfl (fun q hq => ?_) (fun q hq _ => ?_) (fun hl => ?_)
    fun p P i b hp hP hb hdev _ => absurd ⟨p, P, i, b, hp, hP, hdev, hb⟩ hno
  · simp [Kernel.setMicropart, hq]
  · simp [Kernel.setMicropart, Kernel.header, hq]
  · simp only [Kernel.setMicropart, Kernel.header, Function.update_self] at hl ⊢
    exact hmp hl

theorem newHeader (hno : ¬Occupied n₀ k part) {p b : Nat}
    {f : MicropartHeader → MicropartHeader} (hmp : HeaderOk k.mem part ⟨p, true, b⟩)
    (hs : Sane (f (k.headers p)).numMicroparts (f (k.headers p)).micropartSz) :
    MicroInv n₀ ((k.setMicropart part ⟨p, true, b⟩).modHeader part f) := by
  refine h.replace part rfl rfl (fun q hq => ?_) (fun q hq hql => ?_) (fun _ => ?_)
    fun p P i b hp hP hb hdev _ => absurd ⟨p, P, i, b, hp, hP, hdev, hb⟩ hno
  · simp [Kernel.setMicropart, Kernel.modHeader, hq]
  · have hne : (k.micropart q).header ≠ p := (h.header q hql).1.ne hmp h.page hq
    simp [Kernel.setMicropart, Kernel.modHeader, Kernel.header, hq, hne]
  · simp only [Kernel.setMicropart, Kernel.modHeader, Kernel.header, Function.update_self]
    exact ⟨hmp, hs⟩

end MicroInv

end Exokernel
