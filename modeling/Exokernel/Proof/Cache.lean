import Exokernel.Kern.Disk
import Exokernel.Proof.MicropartInv

/-!
# Cached blocks have one name and one page

A block is cached under its device and number, and its header and its page point at each other.
`PageInv` has the pointers; the names are added here. **What the calls do to the cache is said
once**, as a relation between the memory before and after:

* `Calm` — whatever was dropped or added, a cached block on a pinned page is as it was, and a
  block that is new has no writes outstanding;
* `Pins` — by how much each pin count went up.

Allocation, `malloc` and the flush are calm and pin nothing. `bc_read_extent64` is a loop of such
steps and of pins, and its clean-up takes the pins back.

`bc_read_extent64` puts a fresh page on `free_bufs` and calls `malloc` before it pins the page.
The page is clean and nobody's, so `malloc` may take it. `spare` counts the pages that `malloc`
takes first.
-/
set_option autoImplicit false

namespace Exokernel

open List Function

/-! ## 1. The invariant -/

/-- No two cached blocks have the same name. -/
def KeysOk (m : Mem) : Prop :=
  ∀ b c, Cached m b → Cached m c → (m.bufs b).dev = (m.bufs c).dev →
    (m.bufs b).blk64 = (m.bufs c).blk64 → b = c

/-- The partition, the names, and page 0 is nobody's. -/
structure CacheInv (m : Mem) : Prop where
  page : PageInv m
  keys : KeysOk m
  zero : (m.pages 0).status ≠ .free

section
variable {m m' m'' : Mem} {dev : BitVec 32} {blk : BitVec 64} {b p : Nat}

theorem bcLookup64_eq_none (h : CacheOk m) :
    bcLookup64 m dev blk = none ↔
      ∀ b, Cached m b → (m.bufs b).dev = dev → (m.bufs b).blk64 ≠ blk := by
  unfold bcLookup64
  rw [List.find?_eq_none]
  constructor
  · intro hnone b hb hdev hblk
    have hmem : b ∈ m.bcQs (bcHash64 dev blk) := by
      rw [← hdev, ← hblk]
      exact hb
    exact hnone b hmem (by simp [hdev, hblk])
  · intro hnone b hb hkey
    simp only [Bool.and_eq_true, decide_eq_true_eq] at hkey
    exact hnone b (h.cached_iff hb) hkey.2 hkey.1

theorem KeysOk.lookup (h : KeysOk m) (hc : CacheOk m) (hb : Cached m b) :
    bcLookup64 m (m.bufs b).dev (m.bufs b).blk64 = some b := by
  cases hl : bcLookup64 m (m.bufs b).dev (m.bufs b).blk64 with
  | none => exact absurd rfl ((bcLookup64_eq_none hc).mp hl b hb rfl)
  | some c =>
    obtain ⟨hcc, hdev, hblk⟩ := bcLookup64_some hc hl
    rw [h c b hcc hb hdev hblk]

theorem KeysOk.ofSub (h : KeysOk m)
    (hs : ∀ c, Cached m' c → Cached m c ∧ (m'.bufs c).dev = (m.bufs c).dev ∧
      (m'.bufs c).blk64 = (m.bufs c).blk64) : KeysOk m' := by
  intro b c hb hc hdev hblk
  obtain ⟨hb', hbd, hbb⟩ := hs b hb
  obtain ⟨hc', hcd, hcb⟩ := hs c hc
  exact h b c hb' hc' (by rw [← hbd, ← hcd, hdev]) (by rw [← hbb, ← hcb, hblk])

theorem KeysOk.ofNew (h : KeysOk m) (hnew : ∀ c, Cached m c → (m.bufs c).dev = dev →
      (m.bufs c).blk64 ≠ blk)
    (hb : (m'.bufs b).dev = dev ∧ (m'.bufs b).blk64 = blk)
    (hs : ∀ c, Cached m' c → c = b ∨ Cached m c ∧ m'.bufs c = m.bufs c) : KeysOk m' := by
  intro c d hc hd hdev hblk
  rcases hs c hc with rfl | ⟨hc', hce⟩
  · rcases hs d hd with rfl | ⟨hd', hde⟩
    · rfl
    · rw [hde] at hdev hblk
      exact absurd (hblk.symm.trans hb.2) (hnew d hd' (hdev.symm.trans hb.1))
  · rcases hs d hd with rfl | ⟨hd', hde⟩
    · rw [hce] at hdev hblk
      exact absurd (hblk.trans hb.2) (hnew c hc' (hdev.trans hb.1))
    · rw [hce, hde] at hdev hblk
      exact h c d hc' hd' hdev hblk

theorem CacheInv.takes (h : CacheInv m) (hinv : PageInv m') (ht : Takes m m') : CacheInv m' where
  page := hinv
  keys := h.keys.ofSub fun c hc => by
    obtain ⟨hc', he⟩ := ht.cached c hc
    exact ⟨hc', by rw [he], by rw [he]⟩
  zero := by
    rw [ht.inUse h.zero]
    exact h.zero

theorem CacheInv.bufOf (h : CacheInv m) (hb : Cached m b) :
    (m.bufs b).ppn < m.nppage ∧ (m.pages (m.bufs b).ppn).buf = some b := by
  have hlt := h.page.cache.ppnLt b hb
  exact ⟨hlt, (h.page.cache.pageBuf _ hlt b).mpr ⟨hb, rfl⟩⟩

/-! ## 2. Calm steps and pins -/

/-- A header keeps its name, its page and its state. -/
structure SameBuf (e e' : BcEntry) : Prop where
  dev : e'.dev = e.dev
  blk64 : e'.blk64 = e.blk64
  ppn : e'.ppn = e.ppn
  writecnt : e'.writecnt = e.writecnt
  state : e'.state = e.state

theorem SameBuf.refl (e : BcEntry) : SameBuf e e := ⟨rfl, rfl, rfl, rfl, rfl⟩

theorem SameBuf.trans {e e' e'' : BcEntry} (h : SameBuf e e') (h' : SameBuf e' e'') :
    SameBuf e e'' :=
  ⟨h'.dev.trans h.dev, h'.blk64.trans h.blk64, h'.ppn.trans h.ppn, h'.writecnt.trans h.writecnt,
    h'.state.trans h.state⟩

/-- A header with no writes outstanding, on a page that nobody holds or that held no block. -/
structure Quiet (m : Mem) (e : BcEntry) : Prop where
  writecnt : e.writecnt = 0
  state : e.state &&& bcGoingOut = 0#32
  idle : (m.pages e.ppn).pinned = 0 ∨ (m.pages e.ppn).buf = none

/-- Cached blocks on pinned pages are as they were, and new ones are fresh. -/
structure Calm (m m' : Mem) : Prop where
  nppage : m'.nppage = m.nppage
  pinned : ∀ p, (m.pages p).pinned ≤ (m'.pages p).pinned
  held : ∀ p, (m.pages p).pinned ≠ 0 → (m.pages p).buf ≠ none →
    (m'.pages p).buf = (m.pages p).buf
  cached : ∀ c, Cached m' c → Cached m c ∧ SameBuf (m.bufs c) (m'.bufs c) ∨ Quiet m (m'.bufs c)

theorem Calm.refl (m : Mem) : Calm m m :=
  ⟨rfl, fun _ => le_rfl, fun _ _ _ => rfl, fun _ hc => .inl ⟨hc, .refl _⟩⟩

theorem Calm.trans (h : Calm m m') (h' : Calm m' m'') : Calm m m'' where
  nppage := h'.nppage.trans h.nppage
  pinned p := (h.pinned p).trans (h'.pinned p)
  held p hp hb := by
    have hp' : (m'.pages p).pinned ≠ 0 := by
      have := h.pinned p
      omega
    have he := h.held p hp hb
    rw [h'.held p hp' (he ▸ hb), he]
  cached c hc := by
    rcases h'.cached c hc with ⟨hc', hs'⟩ | hf
    · rcases h.cached c hc' with ⟨hc, hs⟩ | hf
      · exact .inl ⟨hc, hs.trans hs'⟩
      refine .inr ⟨hs'.writecnt.trans hf.writecnt, by rw [hs'.state]; exact hf.state, ?_⟩
      rw [hs'.ppn]
      exact hf.idle
    refine .inr ⟨hf.writecnt, hf.state, ?_⟩
    have hle := h.pinned (m''.bufs c).ppn
    by_cases hp : (m.pages (m''.bufs c).ppn).pinned = 0
    · exact .inl hp
    -- held in `m`, so held in `m'`: it had no block in `m'`, and so none in `m`
    right
    by_contra hb
    have he := h.held _ hp hb
    rcases hf.idle with hp' | hb'
    · omega
    · exact hb (he ▸ hb')

theorem Takes.pinned_eq (h : Takes m m') (p : Nat) :
    (m'.pages p).pinned = (m.pages p).pinned := by
  rcases h.pages p with he | ⟨-, -, t, -, he⟩
  · rw [he]
  · rw [he]
    rfl

theorem Takes.calm (h : Takes m m') : Calm m m' where
  nppage := h.nppage
  pinned p := (h.pinned_eq p).ge
  held p hp _ := by rw [h.pinned hp]
  cached c hc := by
    obtain ⟨hc', he⟩ := h.cached c hc
    exact .inl ⟨hc', by rw [he]; exact .refl _⟩

theorem Frame.pinned_eq (h : Frame m m') (p : Nat) :
    (m'.pages p).pinned = (m.pages p).pinned := by
  rcases h.pages p with he | ⟨-, hpin, -, hpin', -⟩
  · rw [he]
  · rw [hpin, hpin']

theorem Frame.calm (h : Frame m m')
    (hc : ∀ c, Cached m' c → Cached m c ∧ m'.bufs c = m.bufs c ∨ Quiet m (m'.bufs c)) :
    Calm m m' where
  nppage := h.nppage
  pinned p := (h.pinned_eq p).ge
  held p hp _ := by rw [h.pinned hp]
  cached c hcc := by
    rcases hc c hcc with ⟨hc', he⟩ | hf
    · exact .inl ⟨hc', by rw [he]; exact .refl _⟩
    · exact .inr hf

/-- **A cached block on a pinned page stays** through a calm step. -/
theorem Calm.stays (h : Calm m m') (hm : CacheInv m) (hm' : CacheInv m')
    (hb : Cached m b) (hpin : (m.pages (m.bufs b).ppn).pinned ≠ 0) :
    Cached m' b ∧ SameBuf (m.bufs b) (m'.bufs b) := by
  obtain ⟨hlt, hbuf⟩ := hm.bufOf hb
  have hsome : (m.pages (m.bufs b).ppn).buf ≠ none := by
    rw [hbuf]
    exact nofun
  have hbuf' := (h.held _ hpin hsome).trans hbuf
  obtain ⟨hb', hppn⟩ := (hm'.page.cache.pageBuf _ (h.nppage ▸ hlt) b).mp hbuf'
  rcases h.cached b hb' with ⟨-, hs⟩ | hq
  · exact ⟨hb', hs⟩
  rcases hppn ▸ hq.idle with hp | hb
  · exact absurd hp hpin
  · exact absurd hb hsome

/-- The pages in `ps` were pinned, once for each time they are listed. -/
def Pins (m m' : Mem) (ps : List Nat) : Prop :=
  ∀ p, (m'.pages p).pinned = (m.pages p).pinned + ps.count p

theorem Takes.pins (h : Takes m m') : Pins m m' [] := fun p => by simp [h.pinned_eq p]

theorem Frame.pins (h : Frame m m') : Pins m m' [] := fun p => by simp [h.pinned_eq p]

theorem Pins.trans {ps qs : List Nat} (h : Pins m m' ps) (h' : Pins m' m'' qs) :
    Pins m m'' (ps ++ qs) := by
  intro p
  rw [h' p, h p, count_append]
  omega

theorem pins_pin (m : Mem) (p : Nat) : Pins m (ppagePin m p) [p] := by
  intro q
  by_cases hq : q = p
  · subst hq
    simp [ppagePin, Mem.modPage]
  · have hne : ¬p = q := fun h => hq h.symm
    simp [ppagePin, Mem.modPage, hq, hne]

theorem pins_pinRes (m : Mem) (res : Option Nat) : Pins m (pinRes m res) res.toList := by
  cases res with
  | none => exact fun p => by simp [pinRes]
  | some p => exact pins_pin m p

end

/-! ### Pages and headers rewritten in place -/

section
variable {m m' : Mem} {b p : Nat}

/-- A page descriptor changed, but neither its status nor its buffer. -/
theorem CacheInv.modPage (h : CacheInv m) (p : Nat) {f : Ppage → Ppage}
    (hs : ∀ pp, (f pp).status = pp.status) (hb : ∀ pp, (f pp).buf = pp.buf) :
    CacheInv (m.modPage p f) where
  page := h.page.modPage p hs hb
  keys := h.keys
  zero := by
    rw [show ((m.modPage p f).pages 0).status = _ from of_update Ppage.status fun _ => hs _]
    exact h.zero

theorem Calm.modPage (m : Mem) (p : Nat) {f : Ppage → Ppage} (hb : ∀ pp, (f pp).buf = pp.buf)
    (hp : ∀ pp, pp.pinned ≤ (f pp).pinned) : Calm m (m.modPage p f) where
  nppage := rfl
  pinned q := by
    by_cases hq : q = p
    · subst hq
      simpa [Mem.modPage] using hp _
    · simp [Mem.modPage, hq]
  held q _ _ := of_update Ppage.buf fun _ => hb _
  cached c hc := .inl ⟨hc, .refl _⟩

theorem CacheInv.pin (h : CacheInv m) (p : Nat) : CacheInv (ppagePin m p) :=
  h.modPage p (fun _ => rfl) fun _ => rfl

theorem Calm.pin (m : Mem) (p : Nat) : Calm m (ppagePin m p) :=
  .modPage m p (fun _ => rfl) fun _ => Nat.le_succ _

theorem CacheInv.assert (h : CacheInv m) (c : Bool) : CacheInv (m.assert c) := by
  have hp := h.page.setPanicked c
  obtain ⟨_, he⟩ := m.assert_eq c
  rw [he] at hp ⊢
  exact ⟨hp, h.keys, h.zero⟩

theorem CacheInv.unpin (h : CacheInv m) (p : Nat) : CacheInv (ppageUnpin m p) :=
  (h.assert _).modPage p (fun _ => rfl) fun _ => rfl

/-- A header changed, but neither its name nor its page nor whether it is dirty. -/
theorem CacheInv.modBuf (h : CacheInv m) (b : Nat) {f : BcEntry → BcEntry}
    (hdev : (f (m.bufs b)).dev = (m.bufs b).dev) (hblk : (f (m.bufs b)).blk64 = (m.bufs b).blk64)
    (hppn : (f (m.bufs b)).ppn = (m.bufs b).ppn) (hdirty : (f (m.bufs b)).dirty = (m.bufs b).dirty)
    (hv : (m.bufs b).state &&& bcValid ≠ 0#32 → (f (m.bufs b)).state &&& bcValid ≠ 0#32) :
    CacheInv (m.modBuf b f) := by
  have hall : ∀ c, ((m.modBuf b f).bufs c).dev = (m.bufs c).dev ∧
      ((m.modBuf b f).bufs c).blk64 = (m.bufs c).blk64 ∧
      ((m.modBuf b f).bufs c).ppn = (m.bufs c).ppn ∧
      ((m.modBuf b f).bufs c).dirty = (m.bufs c).dirty ∧
      ((m.bufs c).state &&& bcValid ≠ 0#32 →
        ((m.modBuf b f).bufs c).state &&& bcValid ≠ 0#32) := by
    intro c
    by_cases hc : c = b
    · subst hc
      simp only [Mem.modBuf, update_self]
      exact ⟨hdev, hblk, hppn, hdirty, hv⟩
    · simp [Mem.modBuf, update_of_ne hc]
  have hcount : dirtyCount (m.modBuf b f) = dirtyCount m :=
    Tally.familyCount_congr (fun _ => rfl) fun _ c _ => (hall c).2.2.2.1
  have hcached : ∀ c, Cached (m.modBuf b f) c ↔ Cached m c := by
    intro c
    rw [Cached, (hall c).1, (hall c).2.1]
    exact Iff.rfl
  refine ⟨⟨h.page.free.congr rfl rfl rfl rfl rfl (fun _ => rfl) fun _ _ => Iff.rfl,
    h.page.cache.sameKeys rfl rfl rfl rfl (fun _ => rfl) (fun c => (hall c).1)
      (fun c => (hall c).2.1) (fun c => (hall c).2.2.1) (fun c => (hall c).2.2.2.2) ?_,
    h.page.owner⟩, h.keys.ofSub fun c hc => ⟨(hcached c).mp hc, (hall c).1, (hall c).2.1⟩, h.zero⟩
  rw [hcount]
  exact h.page.cache.ndirty

/-- Only dirty bits and their counter moved. -/
structure DirtyOnly (m m' : Mem) : Prop where
  nppage : m'.nppage = m.nppage
  pages : m'.pages = m.pages
  queues : m'.bcQs = m.bcQs
  same : ∀ c, SameBuf (m.bufs c) (m'.bufs c)
  panicked : m'.panicked = m.panicked

theorem DirtyOnly.refl (m : Mem) : DirtyOnly m m := ⟨rfl, rfl, rfl, fun _ => .refl _, rfl⟩

theorem DirtyOnly.cached (h : DirtyOnly m m') (c : Nat) : Cached m' c ↔ Cached m c := by
  rw [Cached, Cached, h.queues, (h.same c).dev, (h.same c).blk64]

theorem DirtyOnly.calm (h : DirtyOnly m m') : Calm m m' where
  nppage := h.nppage
  pinned p := by rw [h.pages]
  held p _ _ := by rw [h.pages]
  cached c hc := .inl ⟨(h.cached c).mp hc, h.same c⟩

theorem DirtyOnly.pins (h : DirtyOnly m m') : Pins m m' [] := fun p => by simp [h.pages]

theorem DirtyOnly.inv (h : DirtyOnly m m') (hm : CacheInv m) (hp : PageInv m') : CacheInv m' where
  page := hp
  keys := hm.keys.ofSub fun c hc => ⟨(h.cached c).mp hc, (h.same c).dev, (h.same c).blk64⟩
  zero := by
    rw [h.pages]
    exact hm.zero

theorem dirtyOnly_modBuf (m : Mem) (b : Nat) (n : BitVec 32) (v : Bool) :
    DirtyOnly m ({ m with siNdpages := n }.modBuf b ({ · with dirty := v })) where
  nppage := rfl
  pages := rfl
  queues := rfl
  same c := by
    by_cases hc : c = b
    · subst hc
      simp only [Mem.modBuf, update_self]
      exact ⟨rfl, rfl, rfl, rfl, rfl⟩
    · simp only [Mem.modBuf, update_of_ne hc]
      exact .refl _
  panicked := rfl

theorem dirtyOnly_setClean (m : Mem) (b : Nat) : DirtyOnly m (bcSetClean m b) := by
  unfold bcSetClean
  split
  · exact dirtyOnly_modBuf m b _ false
  · exact .refl m

theorem dirtyOnly_setDirty (m : Mem) (b : Nat) : DirtyOnly m (bcSetDirty m b) := by
  unfold bcSetDirty
  split
  · exact dirtyOnly_modBuf m b _ true
  · exact .refl m

theorem CacheInv.setClean (h : CacheInv m) (hb : Cached m b) : CacheInv (bcSetClean m b) := by
  have hp : PageInv (PageOp.exec m (.setClean b)) := h.page.exec hb
  exact (dirtyOnly_setClean m b).inv h hp

theorem CacheInv.setDirty (h : CacheInv m) (hb : Cached m b) : CacheInv (bcSetDirty m b) := by
  have hp : PageInv (PageOp.exec m (.setDirty b)) := h.page.exec hb
  exact (dirtyOnly_setDirty m b).inv h hp

end

/-! ## 3. Allocation -/

section
variable {m m' : Mem} {b p : Nat}

/-- Empty pages that nobody pinned. -/
def spare (m : Mem) : Nat := m.freeList.countP fun p => decide ((m.pages p).pinned = 0)

theorem spare_congr (hl : m'.freeList = m.freeList)
    (hp : ∀ p ∈ m.freeList, (m'.pages p).pinned = (m.pages p).pinned) : spare m' = spare m := by
  rw [spare, spare, hl]
  exact countP_congr fun p hmem => by rw [hp p hmem]

variable {blk : BitVec 64} {dev : BitVec 32} {r : Except Errno Nat} {state : BitVec 8}
  {userreq : Bool}

theorem spare_take (h : PageInv m) (t : PpStatus) (hf : ppageFindFree m userreq = .ok p) :
    spare m ≤ spare (ppageReclaim m p t) + 1 := by
  obtain ⟨hlt, hs, -⟩ := ppageFindFree_ok h hf
  obtain ⟨hpages, hl, -⟩ := ppageReclaim_spec (t := t) h hlt hs
  have hpin : ∀ q, ((ppageReclaim m p t).pages q).pinned = (m.pages q).pinned := by
    intro q
    rw [hpages]
    exact of_update Ppage.pinned fun _ => rfl
  have hcount : spare (ppageReclaim m p t) =
      (m.freeList.erase p).countP fun q => decide ((m.pages q).pinned = 0) := by
    rw [spare, hl]
    exact countP_congr fun q _ => by rw [hpin]
  rw [hcount, countP_erase, spare]
  split
  · omega
  · omega

/-- Allocation takes one empty page, or none. -/
theorem spare_alloc (h : PageInv m) {t : PpStatus}
    (heq : ppageAlloc m t userreq = (r, m')) : spare m ≤ spare m' + 1 := by
  rcases ppageAlloc_cases heq with ⟨-, -, rfl⟩ | ⟨p, -, hf, rfl⟩
  · exact Nat.le_succ _
  · exact spare_take h t hf

/-- As long as there is one, the kernel takes an empty page. -/
theorem ppageAlloc_spare (h : PageInv m) (hspare : 0 < spare m) (t : PpStatus) :
    ∃ p ∈ m.freeList, ppageAlloc m t false = (.ok p, ppageReclaimPage m p t) := by
  obtain ⟨q, hq, hpin⟩ := countP_pos_iff.mp hspare
  have hsome : (m.freeList.find? fun p => decide ((m.pages p).pinned = 0)).isSome = true :=
    List.find?_isSome.mpr ⟨q, hq, hpin⟩
  obtain ⟨p, hp⟩ := Option.isSome_iff_exists.mp hsome
  have hmem := mem_of_find?_eq_some hp
  refine ⟨p, hmem, ?_⟩
  have hfind : ppageFindFree m false = .ok p := by
    simp only [ppageFindFree, Bool.not_false, Bool.true_or, if_true, hp]
  have hnone := ((h.free.memList p).mp hmem).2.2
  simp [ppageAlloc, hfind, ppageReclaim, hnone]

theorem spare_kmalloc (h : PageInv m) {ok : Bool} (heq : kmalloc m = (ok, m')) :
    spare m ≤ spare m' + 1 := by
  obtain ⟨f, rfl | ⟨p, hf, rfl⟩⟩ := kmalloc_cases heq
  · exact Nat.le_succ _
  · exact spare_take h.mallocTick _ hf

/-- **With an empty page left, `malloc` succeeds and drops no buffer.** -/
theorem kmalloc_spare (h : PageInv m) (hspare : 0 < spare m) :
    ∃ m', kmalloc m = (true, m') ∧ m'.bufs = m.bufs ∧ m'.bcQs = m.bcQs ∧
      ∀ p, (m.pages p).buf ≠ none → m'.pages p = m.pages p := by
  unfold kmalloc
  cases m.mallocs 0 with
  | block => exact ⟨_, rfl, rfl, rfl, fun _ _ => rfl⟩
  | page =>
    obtain ⟨q, hq, he⟩ := ppageAlloc_spare (h.mallocTick (f := fun n => m.mallocs (n + 1))) hspare
      .kernel
    simp only [he]
    refine ⟨_, rfl, rfl, rfl, fun p hp => ?_⟩
    have hne : p ≠ q := by
      rintro rfl
      exact hp ((h.free.memList p).mp hq).2.2
    simp [ppageReclaimPage, ppageInitpp, Mem.modPage, hne]

theorem spare_bcAllocBufs (h : PageInv m) {r : Except Errno Unit} (heq : bcAllocBufs m = (r, m')) :
    spare m ≤ spare m' + 1 := by
  unfold bcAllocBufs at heq
  split at heq
  · cases heq
    exact Nat.le_succ _
  split at heq
  · rename_i halloc
    cases heq
    exact spare_alloc h halloc
  rename_i halloc
  cases heq
  have hle := spare_alloc h halloc
  exact hle

theorem spare_bcFill (m : Mem) (b : Nat) (dev : BitVec 32) (blk : BitVec 64) (p : Nat)
    (state : BitVec 8) : spare (bcFill m b dev blk p state) = spare m :=
  spare_congr rfl fun _ _ => of_update Ppage.pinned fun _ => rfl

theorem spare_bcInsert64 (h : PageInv m)
    (heq : bcInsert64 m dev blk p state = (r, m')) :
    spare m ≤ spare m' + 1 := by
  unfold bcInsert64 at heq
  split at heq
  · cases heq
    exact Nat.le_succ _
  split at heq
  · cases heq
    rw [spare_bcFill]
    exact Nat.le_succ _
  split at heq
  · rename_i halloc
    cases heq
    exact spare_bcAllocBufs h halloc
  rename_i halloc
  have hle := spare_bcAllocBufs h halloc
  split at heq
  · cases heq
    rwa [spare_bcFill]
  · cases heq
    exact hle

theorem spare_ppageFree (m : Mem) (p : Nat) : spare m ≤ spare (ppageFree m p) := by
  have hsub : m.freeList.Sublist (ppageFree m p).freeList := by
    unfold ppageFree
    split
    · exact List.Sublist.refl _
    dsimp only
    split
    · exact List.Sublist.refl _
    · exact sublist_cons_self p _
  calc spare m
      = m.freeList.countP (fun q => decide (((ppageFree m p).pages q).pinned = 0)) :=
        countP_congr fun q _ => by rw [ppageFree_pinned]
    _ ≤ spare (ppageFree m p) := hsub.countP_le

theorem spare_getReclaimableBuffer (h : PageInv m)
        (heq : ppageGetReclaimableBuffer m dev blk state userreq = (r, m')) :
    spare m ≤ spare m' + 2 := by
  obtain ⟨e, -, halloc⟩ | ⟨q, m₁, m₂, halloc, hins, rfl⟩ := ppageGetReclaimableBuffer_cases heq
  · have := spare_alloc h halloc
    omega
  · have := spare_alloc h halloc
    have := spare_bcInsert64 (ppageAlloc_inv h (by simp) halloc).1 hins
    have := spare_ppageFree m₂ q
    omega

/-- **`ppage_get_reclaimable_buffer` for a block that is not cached.** -/
theorem CacheInv.getReclaimableBuffer (h : CacheInv m)
    (hnew : bcLookup64 m dev blk = none)
    (heq : ppageGetReclaimableBuffer m dev blk state userreq = (r, m')) : CacheInv m' := by
  obtain ⟨hinv, hframe, hold, hb⟩ := ppageGetReclaimableBuffer_inv h.page heq
  refine ⟨hinv, ?_, ?_⟩
  · cases r with
    | error e =>
      refine h.keys.ofSub fun c hc => ?_
      rcases hold c hc with hr | ⟨hc', he⟩
      · cases hr
      · exact ⟨hc', by rw [he], by rw [he]⟩
    | ok b =>
      obtain ⟨-, hdev, hblk, -⟩ := hb b rfl
      refine h.keys.ofNew ((bcLookup64_eq_none h.page.cache).mp hnew) ⟨hdev, hblk⟩ fun c hc => ?_
      exact (hold c hc).imp_left fun hr => (Except.ok.inj hr)
  · rw [hframe.inUse h.zero]
    exact h.zero

/-- The new block is the only one, and no write of it is outstanding. -/
theorem Calm.getReclaimableBuffer (h : PageInv m)
    (hstate : (bcValid ||| state.setWidth 32) &&& bcGoingOut = 0#32)
        (heq : ppageGetReclaimableBuffer m dev blk state userreq = (r, m')) : Calm m m' := by
  obtain ⟨-, hframe, hold, hb⟩ := ppageGetReclaimableBuffer_inv h heq
  refine hframe.calm fun c hc => ?_
  rcases hold c hc with hr | hold
  · obtain ⟨-, -, -, -, -, hpin, -, hw, hs, -⟩ := hb c hr.symm
    exact .inr ⟨hw, by rw [hs]; exact hstate, .inl hpin⟩
  · exact .inl hold

/-- A buffer thrown out of the cache, its page put on `free_list`. -/
theorem CacheInv.drop (h : CacheInv m) (hp : p ∈ m.freeBufs) :
    CacheInv (ppageFreeBufs2FreeList m p) := by
  obtain ⟨b, hb, -⟩ := h.page.bufOf hp
  obtain ⟨hpages, -, -, -, hcached⟩ := ppageFreeBufs2FreeList_spec h.page hp hb
  refine ⟨h.page.freeBufs2FreeList hp, h.keys.ofSub fun c hc => ?_, ?_⟩
  · obtain ⟨-, hc', he⟩ := (hcached c).mp hc
    exact ⟨hc', by rw [he], by rw [he]⟩
  rw [hpages]
  have hne : 0 ≠ p := by
    rintro rfl
    exact h.zero ((h.page.free.memBufs 0).mp hp).2.1
  rw [update_of_ne hne]
  exact h.zero

theorem Calm.drop (h : PageInv m) (hp : p ∈ m.freeBufs) (hpin : (m.pages p).pinned = 0) :
    Calm m (ppageFreeBufs2FreeList m p) := by
  obtain ⟨b, hb, -⟩ := h.bufOf hp
  obtain ⟨-, -, -, -, hcached⟩ := ppageFreeBufs2FreeList_spec h hp hb
  exact (Frame.freeBufs2FreeList h hp hpin).calm fun c hc => .inl ((hcached c).mp hc).2

end

/-! ## 4. Requests and their pins -/

section
variable {m m' : Mem} {k k' : Kernel}

theorem unpin_pin (m : Mem) (p : Nat) : ppageUnpin (ppagePin m p) p = m := by
  simp [ppageUnpin, ppagePin, Mem.assert, Mem.modPage]

/-- The pages that a request of the cache keeps pinned. -/
def DiskBuf.refs (bp : DiskBuf) : List Nat := bp.page :: bp.res.toList

/-- The pages that a chain keeps pinned. -/
def chainRefs (chain : List DiskBuf) : List Nat := chain.flatMap DiskBuf.refs

theorem chainRefs_append (c d : List DiskBuf) : chainRefs (c ++ d) = chainRefs c ++ chainRefs d :=
  List.flatMap_append

theorem diskBufFree_eq (m : Mem) (bp : DiskBuf) : diskBufFree m bp = bp.refs.foldl ppageUnpin m := by
  unfold diskBufFree DiskBuf.refs
  cases bp.res with
  | none => rfl
  | some p => rfl

theorem diskBufFreeChain_eq (m : Mem) (chain : List DiskBuf) :
    diskBufFreeChain m chain = (chainRefs chain).foldl ppageUnpin m := by
  unfold diskBufFreeChain chainRefs
  rw [foldl_flatMap]
  exact congrArg (fun f => chain.foldl f m) (funext fun m => funext fun bp => diskBufFree_eq m bp)

/-- **Unpinning pages that are pinned** changes the pin counts and nothing else. -/
theorem foldl_unpin (ps : List Nat) : ∀ {m : Mem}, (∀ p, ps.count p ≤ (m.pages p).pinned) →
    ps.foldl ppageUnpin m = { m with
      pages := fun p => { m.pages p with pinned := (m.pages p).pinned - ps.count p } } := by
  induction ps with
  | nil =>
    intro m _
    simp
  | cons q ps ih =>
    intro m hle
    have hq : 0 < (m.pages q).pinned := by
      have := hle q
      rw [count_cons_self] at this
      omega
    have hpages : ∀ p, ((ppageUnpin m q).pages p) =
        { m.pages p with pinned := (m.pages p).pinned - if q = p then 1 else 0 } := by
      intro p
      by_cases hp : p = q
      · subst hp
        simp [ppageUnpin, Mem.assert, hq, Mem.modPage]
      · have hne : ¬q = p := fun h => hp h.symm
        simp [ppageUnpin, Mem.assert, hq, Mem.modPage, hp, hne]
    have hrest : ∀ p, ps.count p ≤ ((ppageUnpin m q).pages p).pinned := by
      intro p
      have hcount := hle p
      rw [count_cons] at hcount
      rw [hpages]
      by_cases hp : q = p
      · simp only [hp, beq_self_eq_true, if_true] at hcount ⊢
        omega
      · simp only [hp, beq_iff_eq, if_false] at hcount ⊢
        omega
    rw [foldl_cons, ih hrest]
    have hmem : ppageUnpin m q = { m with pages := (ppageUnpin m q).pages } := by
      simp [ppageUnpin, Mem.assert, hq, Mem.modPage]
    rw [hmem]
    simp only [hpages, Nat.sub_sub]
    congr 1
    funext p
    rw [count_cons]
    by_cases hp : q = p
    · simp [hp, Nat.add_comm]
    · simp [hp]

/-- What `disk_prepare_bc_request` does: with a block of `malloc`'s the pages are pinned and the
    chain grows, otherwise nothing is pinned. -/
theorem diskPrepareBcRequest_cases {dev : BitVec 32} {blk : BitVec 64} {page : Nat}
    {res : Option Nat} {chain : List DiskBuf} {r : Except Errno (List DiskBuf)}
    (heq : diskPrepareBcRequest k dev blk page res chain = (r, k')) :
    ((∃ e, r = .error e) ∧ (k' = k ∨ ∃ ok m, kmalloc k.mem = (ok, m) ∧ k' = k.setMem m)) ∨
      ∃ m, kmalloc k.mem = (true, m) ∧
        r = .ok (chain ++
          [⟨blk * 4096 / (k.disks dev.toNat).bsize.setWidth 64, page, res⟩]) ∧
        k' = k.setMem (pinRes (ppagePin m page) res) := by
  unfold diskPrepareBcRequest at heq
  dsimp only at heq
  split at heq
  · cases heq
    exact .inl ⟨⟨_, rfl⟩, .inl rfl⟩
  split at heq
  · rename_i m hm
    cases heq
    exact .inl ⟨⟨_, rfl⟩, .inr ⟨false, m, hm, rfl⟩⟩
  rename_i m hm
  split at heq
  · cases heq
    exact .inr ⟨m, hm, rfl, rfl⟩
  · cases heq
    exact .inl ⟨⟨_, rfl⟩, .inr ⟨true, m, hm, by rw [unpin_pin]⟩⟩

theorem CacheInv.kmalloc (h : CacheInv m) {ok : Bool} (heq : kmalloc m = (ok, m')) :
    CacheInv m' ∧ Takes m m' := by
  obtain ⟨hinv, ht⟩ := kmalloc_inv h.page heq
  exact ⟨h.takes hinv ht, ht⟩

theorem CacheInv.pinRes (h : CacheInv m) (res : Option Nat) : CacheInv (pinRes m res) := by
  cases res with
  | none => exact h
  | some p => exact h.pin p

theorem Calm.pinRes (m : Mem) (res : Option Nat) : Calm m (pinRes m res) := by
  cases res with
  | none => exact .refl m
  | some p => exact .pin m p

end

end Exokernel
