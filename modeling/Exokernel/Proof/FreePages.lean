import Exokernel.Kern.Boot
import Exokernel.Proof.PageAlloc

/-!
# The free-page partition along every run of the allocator

`PageOp` lists the allocator's entry points and `PageOp.exec` runs one. Each of
them has a contract that its comment in the source states — "take a free page off
the free page list", "move a page off free_bufs" — and that the code relies on
without checking: `PageOp.Contract`. **Along every run of calls within contract the
partition holds**, the three counters included.

`ppage_reclaim_buffer` with type `PP_FREE` is only ever the first half of putting a
page back (`ppage_free_bufs_2_free_list` and the clean-up of `bc_read_extent64`), so
it appears here as that pair.
-/
set_option autoImplicit false

namespace Exokernel

open Tally List

/-! ## 1. The partition, as a reader of the counters sees it -/

/-- Free pages are on exactly one list, once; a free page is on `free_bufs` iff it
    holds a buffer; and the counters say how many there are. -/
structure FreePartition (m : Mem) : Prop where
  onOne : ∀ p < m.nppage, (m.pages p).status = .free ↔ Xor (p ∈ m.freeList) (p ∈ m.freeBufs)
  inRange : ∀ p, p ∈ m.freeList ∨ p ∈ m.freeBufs → p < m.nppage
  once : m.freeList.Nodup ∧ m.freeBufs.Nodup
  filled : ∀ p < m.nppage, (m.pages p).status = .free →
    (p ∈ m.freeBufs ↔ (m.pages p).buf ≠ none)
  nfreepages : m.siNfreepages.toNat = m.freeList.length + m.freeBufs.length
  nfreebufpages : m.siNfreebufpages.toNat = m.freeBufs.length
  ndpages : m.siNdpages.toNat = dirtyCount m

variable {m m' : Mem} {p b : Nat}

theorem FreeOk.length_le (h : FreeOk m) :
    m.freeList.length + m.freeBufs.length ≤ m.nppage := by
  have hnodup : (m.freeList ++ m.freeBufs).Nodup := by
    refine nodup_append.mpr ⟨h.nodupList, h.nodupBufs, ?_⟩
    rintro p hp _ hp' rfl
    exact ((h.memBufs p).mp hp').2.2 ((h.memList p).mp hp).2.2
  have hsub : m.freeList ++ m.freeBufs ⊆ List.range m.nppage := by
    intro p hp
    rw [mem_range]
    rcases mem_append.mp hp with hp | hp
    · exact ((h.memList p).mp hp).1
    · exact ((h.memBufs p).mp hp).1
  simpa using (subperm_of_subset hnodup hsub).length_le

/-- Headers are made a window page at a time, so there are few of them. -/
theorem CacheOk.dirtyCount_le (h : CacheOk m) :
    dirtyCount m ≤ m.bcNextPage * headersPerPage :=
  familyCount_le h.nodupQ (fun q r c hc hc' => (h.hashed q c hc).symm.trans (h.hashed r c hc'))
    fun _ c hc => h.made c (.inl (h.cached_iff hc))

theorem PageInv.freePartition (h : PageInv m) : FreePartition m := by
  have hlen := h.free.length_le
  have hn := m.nppage_le
  constructor
  · intro p hp
    rw [Xor, h.free.memList, h.free.memBufs]
    by_cases hb : (m.pages p).buf = none <;> simp [hb, hp]
  · rintro p (hp | hp)
    · exact ((h.free.memList p).mp hp).1
    · exact ((h.free.memBufs p).mp hp).1
  · exact ⟨h.free.nodupList, h.free.nodupBufs⟩
  · intro p hp hs
    rw [h.free.memBufs]
    exact ⟨fun hx => hx.2.2, fun hx => ⟨hp, hs, hx⟩⟩
  · rw [h.free.nfree, BitVec.toNat_ofNat, Nat.mod_eq_of_lt (by omega)]
  · rw [h.free.nfreebuf, BitVec.toNat_ofNat, Nat.mod_eq_of_lt (by omega)]
  have hd := h.cache.dirtyCount_le
  have hnext := h.cache.nextPage
  simp only [headersPerPage] at hd
  rw [h.cache.ndirty, BitVec.toNat_ofNat, Nat.mod_eq_of_lt (by omega)]

/-! ## 2. The calls -/

/-- The entry points of the page allocator and the cache's bookkeeping. -/
inductive PageOp where
  | alloc (type : PpStatus) (userreq : Bool)
  | allocN (type : PpStatus) (n : Nat)
  | free (p : Nat)
  | reclaim (p : Nat) (type : PpStatus)
  | reclaimBuffer (p : Nat) (type : PpStatus)
  | reclaimPage (p : Nat) (type : PpStatus)
  | reuseBuffer (p : Nat)
  | freeBufs2FreeList (p : Nat)
  | getReclaimableBuffer (dev : BitVec 32) (blk : BitVec 64) (state : BitVec 8) (userreq : Bool)
  | flushByBuf (buf : Option Nat)
  | setDirty (b : Nat)
  | setClean (b : Nat)

namespace PageOp

def exec (m : Mem) : PageOp → Mem
  | alloc type userreq => (ppageAlloc m type userreq).2
  | allocN type n => (ppageAllocN m type n).2
  | free p => ppageFree m p
  | reclaim p type => ppageReclaim m p type
  | reclaimBuffer p type => ppageReclaimBuffer m p type
  | reclaimPage p type => ppageReclaimPage m p type
  | reuseBuffer p => ppageReuseBuffer m p
  | freeBufs2FreeList p => ppageFreeBufs2FreeList m p
  | getReclaimableBuffer dev blk state userreq =>
    (ppageGetReclaimableBuffer m dev blk state userreq).2
  | flushByBuf buf => bcFlushByBuf m buf
  | setDirty b => bcSetDirty m b
  | setClean b => bcSetClean m b

/-- What each function expects of its caller. -/
def Contract (m : Mem) : PageOp → Prop
  | alloc type _ => type ≠ .free
  | allocN type _ => type ≠ .free
  | free p => p < m.nppage ∧ (m.pages p).status ≠ .free
  | reclaim p type => p < m.nppage ∧ (m.pages p).status = .free ∧ type ≠ .free
  | reclaimBuffer p type => p ∈ m.freeBufs ∧ type ≠ .free
  | reclaimPage p type => p ∈ m.freeList ∧ type ≠ .free
  | reuseBuffer p => p ∈ m.freeBufs
  | freeBufs2FreeList p => p ∈ m.freeBufs
  | getReclaimableBuffer _ _ _ _ => True
  | flushByBuf buf => ∀ b, buf = some b → Cached m b
  | setDirty b => Cached m b
  | setClean b => Cached m b

end PageOp

theorem PageInv.ofCache (h : PageInv m) (hc : CacheOk m') (hn : m'.nppage = m.nppage)
    (hl : m'.freeList = m.freeList) (hb : m'.freeBufs = m.freeBufs)
    (hf : m'.siNfreepages = m.siNfreepages) (hfb : m'.siNfreebufpages = m.siNfreebufpages)
    (hp : m'.pages = m.pages) : PageInv m' :=
  ⟨h.free.congr hn hl hb hf hfb (fun p => by rw [hp]) fun p _ => by rw [hp], hc,
    fun p hlt => by rw [hp]; exact h.owner p (hn ▸ hlt)⟩

/-- **Every call within contract keeps the partition.** -/
theorem PageInv.exec (h : PageInv m) {op : PageOp} (hok : op.Contract m) :
    PageInv (op.exec m) := by
  cases op with
  | alloc type userreq => exact (ppageAlloc_inv h hok rfl).1
  | allocN type n => exact (ppageAllocN_inv h hok n).1
  | free p => exact h.freePage hok.1 hok.2
  | reclaim p type => exact h.reclaim hok.1 hok.2.1 hok.2.2
  | reclaimBuffer p type => exact h.reclaimBuffer hok.1 hok.2
  | reclaimPage p type => exact h.reclaimPage hok.1 hok.2
  | reuseBuffer p => exact h.reuseBuffer hok
  | freeBufs2FreeList p => exact h.freeBufs2FreeList hok
  | getReclaimableBuffer dev blk state userreq => exact (ppageGetReclaimableBuffer_inv h rfl).1
  | flushByBuf buf =>
    cases buf with
    | none => exact h
    | some b =>
      show PageInv (bcFlushByBuf m (some b))
      rcases bcFlushByBuf_cases h (hok b rfl) with ⟨-, he⟩ | ⟨-, he, hmem, -⟩
      · rwa [he]
      · rw [he]
        exact h.freeBufs2FreeList hmem
  | setDirty b =>
    have hc := h.cache.setDirty hok
    cases hd : bcIsDirty m b with
    | true => simpa [PageOp.exec, bcSetDirty, hd] using h
    | false =>
      simp only [bcSetDirty, hd] at hc
      simp only [PageOp.exec, bcSetDirty, hd]
      exact h.ofCache hc rfl rfl rfl rfl rfl rfl
  | setClean b =>
    obtain ⟨n, hn⟩ := bcSetClean_eq m b
    have hc := h.cache.setClean hok
    simp only [PageOp.exec]
    rw [hn] at hc ⊢
    exact h.ofCache hc rfl rfl rfl rfl rfl rfl

/-! ## 3. The start, and every run from it -/

theorem bootMem_pageInv (n : Nat) (hn : n ≤ 2 ^ 16) (status : Nat → PpStatus) :
    PageInv (bootMem n hn status) := by
  refine ⟨⟨?_, by simp [bootMem], fun p => ?_, fun p => ?_, ?_, by simp [bootMem]⟩, ?_, ?_⟩
  · exact nodup_reverse.mpr (nodup_range.filter _)
  · simp [bootMem, Ppage.init]
  · simp [bootMem, Ppage.init]
  · simp [bootMem]
  · constructor <;> simp [bootMem, Cached, Ppage.init, dirtyCount, familyCount]
  · intro p _ hb
    simp [bootMem, Ppage.init] at hb

/-- **The free-page partition holds in every state a run of calls within contract
    reaches**, from any state in which pages, lists, headers and queues agree. -/
theorem freePartition_of_run {m₀ m : Mem} (h₀ : PageInv m₀)
    (hrun : Run.Reaches (fun m op m' => op.exec m = m') (fun m op => PageOp.Contract m op) m₀ m) :
    FreePartition m := by
  refine PageInv.freePartition (hrun.invariant h₀ ?_)
  rintro m op _ hinv hok rfl
  exact hinv.exec hok

/-- Booted with five pages, the first of them reserved, and one of the others taken for a
    buffer that is then written to. -/
theorem freePartition_boot_dirty :
    FreePartition (bcSetDirty (ppageGetReclaimableBuffer
      (bootMem 5 (by decide) fun p => if p = 0 then .inval else .free) 0 20 1 false).2 135) := by
  refine freePartition_of_run
    (bootMem_pageInv 5 (by decide) fun p => if p = 0 then .inval else .free) ?_
  refine ((Run.Reaches.refl).call (i := .getReclaimableBuffer 0 20 1 false) trivial rfl).call
    (i := .setDirty 135) ?_ rfl
  show Cached _ 135
  unfold Cached
  decide

/-! ## 4. Pages in a row -/

/-- **`ppage_alloc_n` succeeds if and only if there are `n` reclaimable pages in a row.** It takes
    such pages and touches no others, and if it fails nothing has changed. -/
theorem ppageAllocN_exact (h : PageInv m) {t : PpStatus} (ht : t ≠ .free) {n : Nat} (hn : 2 ≤ n)
    {r : Except Errno Nat} (heq : ppageAllocN m t n = (r, m')) :
    ((∃ p, r = .ok p) ↔ ∃ p, ReclaimableRun m p n) ∧
    (∀ p, r = .ok p → ReclaimableRun m p n ∧
      (∀ q, p ≤ q ∧ q < p + n → (m'.pages q).status = t ∧ q ∉ m'.freeList ∧ q ∉ m'.freeBufs) ∧
      ∀ q, ¬(p ≤ q ∧ q < p + n) → m'.pages q = m.pages q) ∧
    ∀ e, r = .error e → m' = m := by
  have hcases := ppageAllocN_cases m t n
  dsimp only at hcases
  rw [if_neg (by omega), heq] at hcases
  rcases hcases with ⟨p, hrun, hp⟩ | ⟨hno, hp⟩
  · cases hp
    obtain ⟨hinv, -, hpages⟩ := h.reclaimRun ht n fun i hi =>
      (hrun i hi).imp_right ppageIsReclaimable_free
    refine ⟨⟨fun _ => ⟨p, hrun⟩, fun _ => ⟨p, rfl⟩⟩, ?_, nofun⟩
    rintro _ ⟨⟩
    refine ⟨hrun, fun q hq => ?_, fun q hq => (hpages q).trans (if_neg hq)⟩
    have hs : ((ppageReclaimRun m p t n).pages q).status = t := by
      rw [hpages, if_pos hq]
      rfl
    exact ⟨hs, fun hl => ht (hs.symm.trans ((hinv.free.memList q).mp hl).2.1),
      fun hb => ht (hs.symm.trans ((hinv.free.memBufs q).mp hb).2.1)⟩
  · cases hp
    exact ⟨⟨nofun, fun ⟨p, hrun⟩ => (hno p hrun).elim⟩, nofun, fun _ _ => rfl⟩

/-- Three of the four free pages. -/
theorem ppageAllocN_boot : ∃ p, (ppageAllocN (bootMem 5 (by decide) fun p =>
    if p = 0 then .inval else .free) .user 3).1 = .ok p :=
  (ppageAllocN_exact (bootMem_pageInv 5 (by decide) fun p => if p = 0 then .inval else .free)
    (t := .user) (by decide) (n := 3) (by decide) rfl).1.mpr ⟨1, ppageRunFrom_iff.mp rfl⟩

end Exokernel
