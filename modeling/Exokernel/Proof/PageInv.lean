import Exokernel.Lib.Run
import Exokernel.Lib.Tally
import Exokernel.Lib.Update
import Exokernel.Kern.Ppage

/-!
# The free pages and the cache — one partition, kept by every allocator path

A page that nobody uses is on exactly one of two lists: `free_list` if it is
empty, `free_bufs` if it still holds a cached block. A cached block is found
through its hash queue and through the page that holds it. Three counters repeat
what the lists say. `PageInv` is all of that, in two halves:

* `FreeOk` — status against lists against `si_nfreepages`/`si_nfreebufpages`;
* `CacheOk` — pages against headers against hash queues against `si_ndpages`.

**The halves meet in one place only**, `ppage_reclaim_buffer`, which takes a page
off `free_bufs` and its header off its queue. Everything else moves one half and
leaves the other where it was, so each half has its own few update lemmas and the
functions are assembled from those.

-/
set_option autoImplicit false

namespace Exokernel

open Function List BitVec

open Tally

variable {m m' : Mem} {p b : Nat} {type : PpStatus}

/-! ## 1. The invariant -/

/-- The header is on the hash queue of its own key. -/
def Cached (m : Mem) (b : Nat) : Prop :=
  b ∈ m.bcQs (bcHash64 (m.bufs b).dev (m.bufs b).blk64)

/-- The number of cached buffers that are dirty. -/
def dirtyCount (m : Mem) : Nat := familyCount m.bcQs (bcIsDirty m)

/-- The two free lists hold the free pages, empty and filled, once each. -/
structure FreeOk (m : Mem) : Prop where
  nodupList : m.freeList.Nodup
  nodupBufs : m.freeBufs.Nodup
  memList : ∀ p, p ∈ m.freeList ↔
    p < m.nppage ∧ (m.pages p).status = .free ∧ (m.pages p).buf = none
  memBufs : ∀ p, p ∈ m.freeBufs ↔
    p < m.nppage ∧ (m.pages p).status = .free ∧ (m.pages p).buf ≠ none
  nfree : m.siNfreepages = BitVec.ofNat 32 (m.freeList.length + m.freeBufs.length)
  nfreebuf : m.siNfreebufpages = BitVec.ofNat 32 m.freeBufs.length

/-- Pages and headers point at each other, and a header is on one queue or idle. -/
structure CacheOk (m : Mem) : Prop where
  pageBuf : ∀ p < m.nppage, ∀ b, (m.pages p).buf = some b ↔ Cached m b ∧ (m.bufs b).ppn = p
  hashed : ∀ q, ∀ b ∈ m.bcQs q, bcHash64 (m.bufs b).dev (m.bufs b).blk64 = q
  nodupQ : ∀ q, (m.bcQs q).Nodup
  ppnLt : ∀ b, Cached m b → (m.bufs b).ppn < m.nppage
  nodupIdle : m.bcFreeList.Nodup
  idle : ∀ b ∈ m.bcFreeList, ¬ Cached m b
  made : ∀ b, Cached m b ∨ b ∈ m.bcFreeList → b < m.bcNextPage * headersPerPage
  nextPage : m.bcNextPage ≤ 1024
  valid : ∀ b, Cached m b → (m.bufs b).state &&& bcValid ≠ 0#32
  ndirty : m.siNdpages = BitVec.ofNat 32 (dirtyCount m)

/-- A page that holds a buffer is free or a user's. -/
def OwnerOk (m : Mem) : Prop :=
  ∀ p < m.nppage, (m.pages p).buf ≠ none →
    (m.pages p).status = .free ∨ (m.pages p).status = .user

/-- The partition. -/
structure PageInv (m : Mem) : Prop where
  free : FreeOk m
  cache : CacheOk m
  owner : OwnerOk m

theorem OwnerOk.update (h : OwnerOk m) (hn : m'.nppage = m.nppage)
    (hp : (m'.pages p).buf ≠ none → (m'.pages p).status = .free ∨ (m'.pages p).status = .user)
    (ho : ∀ r, r ≠ p → m'.pages r = m.pages r) : OwnerOk m' := by
  intro r hr
  by_cases hrp : r = p
  · subst hrp; exact hp
  · rw [ho r hrp]; exact h r (hn ▸ hr)

theorem CacheOk.cached_iff (h : CacheOk m) {q : Fin bcNumQs} : b ∈ m.bcQs q →
    Cached m b := by
  intro hb
  rw [Cached, h.hashed q b hb]
  exact hb

theorem CacheOk.idle_notMem (h : CacheOk m) (hb : b ∈ m.bcFreeList) (q : Fin bcNumQs) :
    b ∉ m.bcQs q :=
  fun hq => h.idle b hb (h.cached_iff hq)

/-! ## 2. Updates of the free half -/

/-- Nothing the free half reads has changed: the buffer of a page counts only
    while the page is free. -/
theorem FreeOk.congr (h : FreeOk m) (hn : m'.nppage = m.nppage)
    (hl : m'.freeList = m.freeList) (hb : m'.freeBufs = m.freeBufs)
    (hc : m'.siNfreepages = m.siNfreepages) (hcb : m'.siNfreebufpages = m.siNfreebufpages)
    (hs : ∀ p, (m'.pages p).status = (m.pages p).status)
    (hbuf : ∀ p, (m.pages p).status = .free →
      ((m'.pages p).buf = none ↔ (m.pages p).buf = none)) : FreeOk m' where
  nodupList := hl ▸ h.nodupList
  nodupBufs := hb ▸ h.nodupBufs
  memList p := by
    rw [hl, hn, hs, h.memList p]
    exact and_congr_right fun _ => and_congr_right fun hf => (hbuf p hf).symm
  memBufs p := by
    rw [hb, hn, hs, h.memBufs p]
    exact and_congr_right fun _ => and_congr_right fun hf => (hbuf p hf).symm.not
  nfree := by rw [hc, hl, hb]; exact h.nfree
  nfreebuf := by rw [hcb, hb]; exact h.nfreebuf

theorem ofNat_sub_one {n : Nat} (h : 0 < n) :
    BitVec.ofNat 32 n - 1 = BitVec.ofNat 32 (n - 1) := by
  obtain ⟨k, rfl⟩ := Nat.exists_eq_add_one.mpr h
  simp [ofNat_add]

theorem FreeOk.takeList (h : FreeOk m) (hp : p ∈ m.freeList) (hn : m'.nppage = m.nppage)
    (hl : m'.freeList = m.freeList.erase p) (hb : m'.freeBufs = m.freeBufs)
    (hc : m'.siNfreepages = m.siNfreepages - 1) (hcb : m'.siNfreebufpages = m.siNfreebufpages)
    (hs : (m'.pages p).status ≠ .free) (ho : ∀ r, r ≠ p → m'.pages r = m.pages r) :
    FreeOk m' where
  nodupList := hl ▸ h.nodupList.erase p
  nodupBufs := hb ▸ h.nodupBufs
  memList r := by
    rw [hl, h.nodupList.mem_erase_iff, hn, h.memList r]
    by_cases hr : r = p
    · subst hr; simp [hs]
    · simp [ho r hr, hr]
  memBufs r := by
    rw [hb, hn, h.memBufs r]
    by_cases hr : r = p
    · subst hr; simp [hs, ((h.memList r).mp hp).2.2]
    · rw [ho r hr]
  nfree := by
    have hlen : 0 < m.freeList.length := length_pos_of_mem hp
    rw [hc, h.nfree, hl, hb, length_erase_of_mem hp, ofNat_sub_one (by omega),
      Nat.sub_add_comm hlen]
  nfreebuf := by rw [hcb, hb]; exact h.nfreebuf

theorem FreeOk.takeBufs (h : FreeOk m) (hp : p ∈ m.freeBufs) (hn : m'.nppage = m.nppage)
    (hl : m'.freeList = m.freeList) (hb : m'.freeBufs = m.freeBufs.erase p)
    (hc : m'.siNfreepages = m.siNfreepages - 1)
    (hcb : m'.siNfreebufpages = m.siNfreebufpages - 1)
    (hs : (m'.pages p).status ≠ .free) (ho : ∀ r, r ≠ p → m'.pages r = m.pages r) :
    FreeOk m' where
  nodupList := hl ▸ h.nodupList
  nodupBufs := hb ▸ h.nodupBufs.erase p
  memList r := by
    rw [hl, hn, h.memList r]
    by_cases hr : r = p
    · subst hr; simp [hs, ((h.memBufs r).mp hp).2.2]
    · rw [ho r hr]
  memBufs r := by
    rw [hb, h.nodupBufs.mem_erase_iff, hn, h.memBufs r]
    by_cases hr : r = p
    · subst hr; simp [hs]
    · simp [ho r hr, hr]
  nfree := by
    have hlen : 0 < m.freeBufs.length := length_pos_of_mem hp
    rw [hc, h.nfree, hl, hb, length_erase_of_mem hp, ofNat_sub_one (by omega),
      Nat.add_sub_assoc hlen]
  nfreebuf := by
    rw [hcb, h.nfreebuf, hb, length_erase_of_mem hp, ofNat_sub_one (length_pos_of_mem hp)]

/-- A page in use whose mapping count is zero goes back: where to, its buffer says. -/
theorem FreeOk.give (h : FreeOk m) (hp : p < m.nppage) (hs : (m.pages p).status ≠ .free)
    (hr : (m.pages p).refcnt = 0) : FreeOk (ppageFree m p) := by
  have hnl : p ∉ m.freeList := fun hm => hs ((h.memList p).mp hm).2.1
  have hnb : p ∉ m.freeBufs := fun hm => hs ((h.memBufs p).mp hm).2.1
  rw [ppageFree_eq hr]
  cases hbuf : (m.pages p).buf with
  | none =>
    constructor
    · simpa using ⟨hnl, h.nodupList⟩
    · exact h.nodupBufs
    · intro r
      by_cases hrp : r = p
      · subst hrp; simp [hbuf, hp]
      · simp [h.memList r, hrp]
    · intro r
      by_cases hrp : r = p
      · subst hrp; simp [hbuf, hnb]
      · simp [update_of_ne hrp, h.memBufs r]
    · simp [h.nfree, Nat.add_right_comm, ofNat_add]
    · simp [h.nfreebuf]
  | some b =>
    constructor
    · exact h.nodupList
    · simpa [nodup_append, h.nodupBufs] using fun x hx (hxp : x = p) => hnb (hxp ▸ hx)
    · intro r
      by_cases hrp : r = p
      · subst hrp; simp [hbuf, hnl]
      · simp [update_of_ne hrp, h.memList r]
    · intro r
      by_cases hrp : r = p
      · subst hrp; simp [hbuf, hp]
      · simp [h.memBufs r, hrp]
    · simp [h.nfree, ofNat_add, add_assoc]
    · simp [h.nfreebuf, ofNat_add]

/-! ## 3. Updates of the cache half -/

section

variable (h : CacheOk m)
include h

section

variable (hn : m'.nppage = m.nppage) (hq : m'.bcQs = m.bcQs) (hi : m'.bcFreeList = m.bcFreeList)
  (hnext : m'.bcNextPage = m.bcNextPage) (hbuf : ∀ p, (m'.pages p).buf = (m.pages p).buf)
include hn hq hi hnext hbuf

/-- Headers keep key and page, and valid ones stay valid: whatever else changed, the
    pointers still agree, and only the count of dirty buffers is left to check. -/
theorem CacheOk.sameKeys (hdev : ∀ c, (m'.bufs c).dev = (m.bufs c).dev)
    (hblk : ∀ c, (m'.bufs c).blk64 = (m.bufs c).blk64)
    (hppn : ∀ c, (m'.bufs c).ppn = (m.bufs c).ppn)
    (hstate : ∀ c, (m.bufs c).state &&& bcValid ≠ 0#32 → (m'.bufs c).state &&& bcValid ≠ 0#32)
    (hd : m'.siNdpages = BitVec.ofNat 32 (dirtyCount m')) : CacheOk m' := by
  have hC : ∀ c, Cached m' c ↔ Cached m c := fun c => by rw [Cached, hdev, hblk, hq, Cached]
  constructor
  · intro p hp c
    rw [hbuf, hC, hppn]
    exact h.pageBuf p (hn ▸ hp) c
  · intro q c hc
    rw [hdev, hblk]
    exact h.hashed q c (hq ▸ hc)
  · exact fun q => hq ▸ h.nodupQ q
  · intro c hc
    rw [hppn, hn]
    exact h.ppnLt c ((hC c).mp hc)
  · exact hi ▸ h.nodupIdle
  · exact fun c hc hcc => h.idle c (hi ▸ hc) ((hC c).mp hcc)
  · intro c hc
    rw [hC, hi] at hc
    rw [hnext]
    exact h.made c hc
  · exact hnext ▸ h.nextPage
  · exact fun c hc => hstate c (h.valid c ((hC c).mp hc))
  · exact hd

theorem CacheOk.congr (hbufs : m'.bufs = m.bufs) (hd : m'.siNdpages = m.siNdpages) :
    CacheOk m' := by
  have hdc : dirtyCount m' = dirtyCount m :=
    familyCount_congr (fun q => by rw [hq]) fun _ c _ => by rw [bcIsDirty, hbufs, bcIsDirty]
  refine h.sameKeys hn hq hi hnext hbuf ?_ ?_ ?_ (fun c hc => ?_) (by rw [hd, hdc, h.ndirty])
  · intro c; rw [hbufs]
  · intro c; rw [hbufs]
  · intro c; rw [hbufs]
  · rw [hbufs]; exact hc

/-- Changing the dirty bit of one header, with the counter set right. -/
theorem CacheOk.setDirtyBit (v : Bool)
    (hbufs : m'.bufs = update m.bufs b { m.bufs b with dirty := v })
    (hd : m'.siNdpages = BitVec.ofNat 32 (dirtyCount m')) : CacheOk m' := by
  refine h.sameKeys hn hq hi hnext hbuf ?_ ?_ ?_ ?_ hd
  all_goals
    intro c
    rw [hbufs]
    by_cases hc : c = b
    · subst hc; simp
    · simp [update_of_ne hc]

end

theorem CacheOk.only_queue (r : Fin bcNumQs)
    (hr : r ≠ bcHash64 (m.bufs b).dev (m.bufs b).blk64) : b ∉ m.bcQs r :=
  fun hb => hr (h.hashed r b hb).symm

theorem CacheOk.setDirty (hb : Cached m b) : CacheOk (bcSetDirty m b) := by
  unfold bcSetDirty
  cases hd : bcIsDirty m b with
  | true => simpa using h
  | false =>
    refine h.setDirtyBit rfl rfl rfl rfl (fun _ => rfl) (b := b) true rfl ?_
    have hcount : dirtyCount ({ m with siNdpages := m.siNdpages + 1 }.modBuf b
        ({ · with dirty := true })) = dirtyCount m + 1 :=
      familyCount_flip (h.nodupQ _) hb h.only_queue hd (by simp [bcIsDirty, Mem.modBuf])
        fun c hc => by simp [bcIsDirty, Mem.modBuf, hc]
    rw [if_pos (by rfl), hcount, ofNat_add, ← h.ndirty]
    rfl

theorem CacheOk.setClean (hb : Cached m b) : CacheOk (bcSetClean m b) := by
  unfold bcSetClean
  cases hd : bcIsDirty m b with
  | false => simpa using h
  | true =>
    refine h.setDirtyBit rfl rfl rfl rfl (fun _ => rfl) (b := b) false rfl ?_
    have hcount : dirtyCount m = dirtyCount ({ m with siNdpages := m.siNdpages - 1 }.modBuf b
        ({ · with dirty := false })) + 1 :=
      familyCount_flip (h.nodupQ _) hb h.only_queue (by simp [bcIsDirty, Mem.modBuf]) hd
        fun c hc => by simp [bcIsDirty, Mem.modBuf, hc]
    have hsub : ∀ n k : BitVec 32, n = k + 1#32 → n - 1 = k := by
      intro n k hn
      rw [hn]
      simp
    rw [if_pos (by rfl)]
    exact hsub _ _ (h.ndirty.trans ((congrArg _ hcount).trans (ofNat_add _ _)))

/-- A cached, clean header leaves the cache together with its page's pointer. -/
theorem CacheOk.remove (hb : Cached m b) (hclean : bcIsDirty m b = false)
    (hn : m'.nppage = m.nppage) (hq : m'.bcQs = fun q => (m.bcQs q).erase b)
    (hi : m'.bcFreeList = b :: m.bcFreeList) (hnext : m'.bcNextPage = m.bcNextPage)
    (hbufs : m'.bufs = update m.bufs b { m.bufs b with state := bcEmpty })
    (hd : m'.siNdpages = m.siNdpages) (hbuf : (m'.pages (m.bufs b).ppn).buf = none)
    (ho : ∀ r, r ≠ (m.bufs b).ppn → m'.pages r = m.pages r) : CacheOk m' := by
  have hkeep : ∀ c, (m'.bufs c).dev = (m.bufs c).dev ∧ (m'.bufs c).blk64 = (m.bufs c).blk64 ∧
      (m'.bufs c).ppn = (m.bufs c).ppn ∧ (m'.bufs c).dirty = (m.bufs c).dirty := by
    intro c
    rw [hbufs]
    by_cases hc : c = b
    · subst hc; simp
    · simp [update_of_ne hc]
  have hC : ∀ c, Cached m' c ↔ c ≠ b ∧ Cached m c := by
    intro c
    rw [Cached, (hkeep c).1, (hkeep c).2.1, hq, (h.nodupQ _).mem_erase_iff, Cached]
  constructor
  · intro p hp c
    rw [hC, (hkeep c).2.2.1]
    by_cases hpp : p = (m.bufs b).ppn
    · -- the page lost its buffer, and no other header points at it
      rw [hpp, hbuf]
      refine ⟨fun hc => by simp at hc, fun ⟨⟨hcb, hc⟩, hcp⟩ => ?_⟩
      have hpn : (m.bufs b).ppn < m.nppage := h.ppnLt b hb
      have h1 := (h.pageBuf _ hpn b).mpr ⟨hb, rfl⟩
      have h2 := (h.pageBuf _ hpn c).mpr ⟨hc, hcp⟩
      exact absurd (Option.some.inj (h2.symm.trans h1)) hcb
    · rw [ho p hpp, h.pageBuf p (hn ▸ hp) c]
      refine ⟨fun ⟨hc, hcp⟩ => ⟨⟨fun hcb => hpp (hcb ▸ hcp.symm), hc⟩, hcp⟩,
        fun ⟨⟨_, hc⟩, hcp⟩ => ⟨hc, hcp⟩⟩
  · intro q c hc
    rw [(hkeep c).1, (hkeep c).2.1]
    exact h.hashed q c (mem_of_mem_erase (by simpa [hq] using hc))
  · intro q
    rw [hq]
    exact (h.nodupQ q).erase b
  · intro c hc
    rw [(hkeep c).2.2.1, hn]
    exact h.ppnLt c ((hC c).mp hc).2
  · rw [hi]
    exact nodup_cons.mpr ⟨fun hbi => h.idle b hbi hb, h.nodupIdle⟩
  · intro c hc hcc
    rw [hi] at hc
    obtain ⟨hcb, hcc⟩ := (hC c).mp hcc
    exact h.idle c ((mem_cons.mp hc).resolve_left hcb) hcc
  · intro c hc
    rw [hC, hi, mem_cons] at hc
    rw [hnext]
    rcases hc with ⟨_, hc⟩ | rfl | hc
    · exact h.made c (.inl hc)
    · exact h.made c (.inl hb)
    · exact h.made c (.inr hc)
  · exact hnext ▸ h.nextPage
  · intro c hc
    obtain ⟨hcb, hc⟩ := (hC c).mp hc
    rw [hbufs, update_of_ne hcb]
    exact h.valid c hc
  · have hdc : dirtyCount m' = dirtyCount m := by
      unfold dirtyCount
      rw [hq, ← familyCount_erase hclean]
      exact familyCount_congr (fun _ => rfl) fun _ c _ => (hkeep c).2.2.2
    rw [hd, hdc, h.ndirty]

end

/-- The header just filled in is cached under its new key, and the other cached
    headers are the ones that were. -/
theorem bcFill_cached (h : CacheOk m) (hb : b ∈ m.bcFreeList) (dev : BitVec 32)
    (blk : BitVec 64) (p : Nat) (state : BitVec 8) (c : Nat) :
    Cached (bcFill m b dev blk p state) c ↔ c = b ∨ Cached m c := by
  have hnb : ∀ q, b ∉ m.bcQs q := h.idle_notMem hb
  by_cases hc : c = b
  · subst hc; simp [Cached, bcFill, Mem.modBuf, Mem.modPage]
  by_cases hq : bcHash64 (m.bufs c).dev (m.bufs c).blk64 = bcHash64 dev blk
  · simp [Cached, bcFill, Mem.modBuf, Mem.modPage, hc, hq]
  · simp [Cached, bcFill, Mem.modBuf, Mem.modPage, hc, hq]

theorem bcValid_or_ne_zero (x : BitVec 32) : (bcValid ||| x) &&& bcValid ≠ 0#32 := by
  intro hx
  have h0 := congrArg (BitVec.getLsbD · 0) hx
  simp [bcValid] at h0

/-- An idle header is filled in and linked, and a page without buffer now has it. -/
theorem CacheOk.fill (h : CacheOk m) {dev : BitVec 32} {blk : BitVec 64} {state : BitVec 8}
    (hb : b ∈ m.bcFreeList) (hp : p < m.nppage) (hnone : (m.pages p).buf = none) :
    CacheOk (bcFill m b dev blk p state) := by
  set m' := bcFill m b dev blk p state with hm'
  have hself : (m'.bufs b).dev = dev ∧ (m'.bufs b).blk64 = blk ∧ (m'.bufs b).ppn = p ∧
      (m'.bufs b).dirty = false ∧ (m'.bufs b).state = bcValid ||| state.setWidth 32 := by
    simp [hm', bcFill, Mem.modBuf, Mem.modPage]
  have hother : ∀ c, c ≠ b → m'.bufs c = m.bufs c := by
    intro c hc
    simp [hm', bcFill, Mem.modBuf, Mem.modPage, hc]
  have hqs : m'.bcQs = update m.bcQs (bcHash64 dev blk)
      (b :: m.bcQs (bcHash64 dev blk)) := by
    simp [hm', bcFill, Mem.modBuf, Mem.modPage]
  have hbuf : ∀ r, (m'.pages r).buf = if r = p then some b else (m.pages r).buf := by
    intro r
    by_cases hr : r = p
    · subst hr; simp [hm', bcFill, Mem.modBuf, Mem.modPage]
    · simp [hm', bcFill, Mem.modBuf, Mem.modPage, hr]
  have hnb : ∀ q, b ∉ m.bcQs q := h.idle_notMem hb
  have hC := bcFill_cached h hb dev blk p state
  have hCb : ¬ Cached m b := h.idle b hb
  constructor
  · intro r hr c
    rw [hbuf, hC]
    by_cases hc : c = b
    · subst hc
      rw [hself.2.2.1]
      by_cases hrp : r = p
      · simp [hrp]
      · have : (m.pages r).buf ≠ some c := fun hx => hCb ((h.pageBuf r hr c).mp hx).1
        simp [hrp, this, Ne.symm hrp]
    rw [hother c hc]
    by_cases hrp : r = p
    · have hno : ¬ (Cached m c ∧ (m.bufs c).ppn = p) := fun hx => by
        have := (h.pageBuf p hp c).mpr hx
        simp [hnone] at this
      subst hrp
      simp only [if_true, hc, false_or, hno, iff_false, Option.some.injEq]
      exact fun hx => hc hx.symm
    · simp only [hrp, if_false, hc, false_or]
      exact h.pageBuf r hr c
  · intro q c hc
    have hmem : (c = b ∧ q = bcHash64 dev blk) ∨ c ∈ m.bcQs q := by
      rw [hqs] at hc
      by_cases hq : q = bcHash64 dev blk
      · subst hq; simpa using hc
      · exact .inr (by simpa [hq] using hc)
    rcases hmem with ⟨rfl, rfl⟩ | hc
    · rw [hself.1, hself.2.1]
    · rw [hother c (fun hcb => hnb q (hcb ▸ hc))]
      exact h.hashed q c hc
  · intro q
    rw [hqs]
    by_cases hq : q = bcHash64 dev blk
    · subst hq; simpa using ⟨hnb _, h.nodupQ _⟩
    · simpa [update_of_ne hq] using h.nodupQ q
  · intro c hc
    rcases (hC c).mp hc with rfl | hc
    · rw [hself.2.2.1]; exact hp
    · rw [hother c (fun hcb => hCb (hcb ▸ hc))]
      exact h.ppnLt c hc
  · exact h.nodupIdle.erase b
  · intro c hc
    obtain ⟨hcb, hc⟩ := h.nodupIdle.mem_erase_iff.mp hc
    rw [hC]
    exact fun hx => hx.elim hcb (h.idle c hc)
  · intro c hc
    rcases hc with hc | hc
    · rcases (hC c).mp hc with rfl | hc
      · exact h.made c (.inr hb)
      · exact h.made c (.inl hc)
    · exact h.made c (.inr (mem_of_mem_erase hc))
  · exact h.nextPage
  · intro c hc
    rcases (hC c).mp hc with rfl | hc
    · rw [hself.2.2.2.2]
      exact bcValid_or_ne_zero _
    · rw [hother c (fun hcb => hCb (hcb ▸ hc))]
      exact h.valid c hc
  · have hclean : bcIsDirty m' b = false := hself.2.2.2.1
    have hdc : dirtyCount m' = dirtyCount m := by
      unfold dirtyCount
      rw [hqs, familyCount_push hclean]
      exact familyCount_congr (fun _ => rfl) fun q c hc => by
        rw [bcIsDirty, hother c (fun hcb => hnb q (hcb ▸ hc)), bcIsDirty]
    rw [hdc]
    exact h.ndirty

/-! ## 4. Updates of neither half -/

theorem PageInv.ofPages (h : PageInv m) {ps : Nat → Ppage}
    (hs : ∀ p, (ps p).status = (m.pages p).status) (hb : ∀ p, (ps p).buf = (m.pages p).buf) :
    PageInv { m with pages := ps } where
  free := h.free.congr rfl rfl rfl rfl rfl hs fun p _ => by rw [hb]
  cache := h.cache.sameKeys rfl rfl rfl rfl hb (fun _ => rfl) (fun _ => rfl) (fun _ => rfl)
    (fun _ hc => hc) h.cache.ndirty
  owner p hp hbuf := by
    rw [hs]
    exact h.owner p hp (by rwa [← hb])

theorem PageInv.modPage (h : PageInv m) (p : Nat) {f : Ppage → Ppage}
    (hs : ∀ pp, (f pp).status = pp.status) (hb : ∀ pp, (f pp).buf = pp.buf) :
    PageInv (m.modPage p f) :=
  h.ofPages (fun _ => of_update Ppage.status fun _ => hs _) fun _ =>
    of_update Ppage.buf fun _ => hb _

theorem PageInv.setPanicked (h : PageInv m) (c : Bool) : PageInv (m.assert c) := by
  obtain ⟨_, he⟩ := m.assert_eq c
  rw [he]
  exact ⟨⟨h.free.1, h.free.2, h.free.3, h.free.4, h.free.5, h.free.6⟩,
    h.cache.sameKeys rfl rfl rfl rfl (fun _ => rfl) (fun _ => rfl) (fun _ => rfl)
      (fun _ => rfl) (fun _ hc => hc) h.cache.ndirty, h.owner⟩

end Exokernel
