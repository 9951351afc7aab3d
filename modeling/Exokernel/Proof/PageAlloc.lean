import Exokernel.Proof.PageInv

/-!
# The allocator keeps the partition

What each function of the page allocator and the cache does to `PageInv`, and —
the second thing its callers need — **what it leaves alone**. `Takes` is that frame
condition: however much was allocated, pages in use and pinned pages are exactly
as they were, so the mapping layer can ignore the allocator altogether.
-/
set_option autoImplicit false

namespace Exokernel

open Function List Nat

open Tally

variable {m m' : Mem} {p b : Nat} {t : PpStatus}

/-! ## 1. Pages taken

`Takes m m'` is what any amount of allocation can have done between `m` and `m'`:
free, unpinned pages were initialised for a new owner, and the buffers they held
are gone. Pages in use and pinned pages are as they were. -/

structure Takes (m m' : Mem) : Prop where
  nppage : m'.nppage = m.nppage
  pages : ∀ p, m'.pages p = m.pages p ∨
    ((m.pages p).status = .free ∧ (m.pages p).pinned = 0 ∧
      ∃ t, t ≠ .free ∧ m'.pages p = (m.pages p).init t)
  cached : ∀ b, Cached m' b → Cached m b ∧ m'.bufs b = m.bufs b
  panicked : m'.panicked = m.panicked

theorem Takes.refl (m : Mem) : Takes m m :=
  ⟨rfl, fun _ => .inl rfl, fun _ hb => ⟨hb, rfl⟩, rfl⟩

theorem Takes.trans {m₁ m₂ m₃ : Mem} (h : Takes m₁ m₂) (h' : Takes m₂ m₃) : Takes m₁ m₃ where
  nppage := h'.nppage.trans h.nppage
  pages p := by
    rcases h.pages p with he | ⟨hf, hpin, t, ht, he⟩
    · rw [← he]; exact h'.pages p
    rcases h'.pages p with he' | ⟨hf', -⟩
    · exact .inr ⟨hf, hpin, t, ht, he'.trans he⟩
    -- a page just taken is in use, so it is not taken again
    rw [he] at hf'
    exact absurd hf' ht
  cached b hb := by
    obtain ⟨hb', he'⟩ := h'.cached b hb
    obtain ⟨hb, he⟩ := h.cached b hb'
    exact ⟨hb, he'.trans he⟩
  panicked := h'.panicked.trans h.panicked

theorem Takes.inUse (h : Takes m m') (hp : (m.pages p).status ≠ .free) :
    m'.pages p = m.pages p :=
  (h.pages p).resolve_right fun hx => hp hx.1

theorem Takes.pinned (h : Takes m m') (hp : (m.pages p).pinned ≠ 0) :
    m'.pages p = m.pages p :=
  (h.pages p).resolve_right fun hx => hp hx.2.1

/-! ## 2. Reclaiming one page -/

/-- The buffer of a page on `free_bufs`, with everything that is known about it. -/
theorem PageInv.bufOf (h : PageInv m) (hp : p ∈ m.freeBufs) :
    ∃ b, (m.pages p).buf = some b ∧ Cached m b ∧ (m.bufs b).ppn = p := by
  obtain ⟨hlt, -, hne⟩ := (h.free.memBufs p).mp hp
  obtain ⟨b, hb⟩ := Option.ne_none_iff_exists'.mp hne
  obtain ⟨hc, hpp⟩ := (h.cache.pageBuf p hlt b).mp hb
  exact ⟨b, hb, hc, hpp⟩

theorem bcRemove_eq (hv : (m.bufs b).state &&& bcValid ≠ 0#32) (hpp : (m.bufs b).ppn = p)
    (hb : (m.pages p).buf = some b) :
    bcRemove m b = { m with
      bcQs := fun q => (m.bcQs q).erase b
      bcFreeList := b :: m.bcFreeList
      bufs := update m.bufs b { m.bufs b with state := bcEmpty }
      pages := update m.pages p { m.pages p with buf := none } } := by
  subst hpp
  simp [bcRemove, Mem.assert, Mem.modBuf, Mem.modPage, hb, hv]

section

variable (h : PageInv m)
include h

/-- **`ppage_reclaim_buffer` in one equation**, when the page is on `free_bufs`: no
    assertion fires, and the page comes out initialised. -/
theorem ppageReclaimBuffer_eq (hp : p ∈ m.freeBufs)
    (hb : (m.pages p).buf = some b) : ∃ n,
    bcSetClean m b = { m with
      siNdpages := n
      bufs := update m.bufs b { m.bufs b with dirty := false } } ∧
    ppageReclaimBuffer m p t = { m with
      siNdpages := n
      siNfreebufpages := m.siNfreebufpages - 1
      siNfreepages := m.siNfreepages - 1
      freeBufs := m.freeBufs.erase p
      bcQs := fun q => (m.bcQs q).erase b
      bcFreeList := b :: m.bcFreeList
      bufs := update m.bufs b { m.bufs b with dirty := false, state := bcEmpty }
      pages := update m.pages p ((m.pages p).init t) } := by
  obtain ⟨hlt, -, -⟩ := (h.free.memBufs p).mp hp
  obtain ⟨hc, hpp⟩ := (h.cache.pageBuf p hlt b).mp hb
  have hv := h.cache.valid b hc
  obtain ⟨n, hn, heq⟩ := ppageReclaimBuffer_remove t hb
  refine ⟨n, hn, ?_⟩
  rw [heq, bcRemove_eq (p := p)]
  · simp [ppageInitpp, Mem.modPage, Ppage.init]
  · simpa using hv
  · simpa using hpp
  · exact hb

theorem PageInv.reclaimBuffer (hp : p ∈ m.freeBufs) (ht : t ≠ .free) :
    PageInv (ppageReclaimBuffer m p t) := by
  obtain ⟨b, hb, hc, hpp⟩ := h.bufOf hp
  obtain ⟨n, hclean, heq⟩ := ppageReclaimBuffer_eq (t := t) h hp hb
  have hcache := h.cache.setClean hc
  rw [hclean] at hcache
  rw [heq]
  refine ⟨h.free.takeBufs hp rfl rfl rfl rfl rfl (by simpa [Ppage.init] using ht)
    fun r hr => by simp [hr], hcache.remove (b := b) ?_ ?_ rfl rfl rfl rfl ?_ rfl ?_ ?_,
    h.owner.update (p := p) rfl (by simp [Ppage.init]) fun r hr => by simp [hr]⟩
  · simpa [Cached] using hc
  · simp [bcIsDirty]
  · simp
  · simp [hpp, Ppage.init]
  intro r hr
  have hrp : r ≠ p := by simpa [hpp] using hr
  simp [hrp]

theorem PageInv.reclaimPage (hp : p ∈ m.freeList) (ht : t ≠ .free) :
    PageInv (ppageReclaimPage m p t) := by
  obtain ⟨-, -, hnone⟩ := (h.free.memList p).mp hp
  have ho : ∀ r, r ≠ p → (ppageReclaimPage m p t).pages r = m.pages r := fun r hr => by
    simp [ppageReclaimPage, ppageInitpp, Mem.modPage, hr]
  refine ⟨h.free.takeList hp rfl rfl rfl rfl rfl ?_ ho, h.cache.congr rfl rfl rfl rfl
    (fun r => of_update Ppage.buf fun _ => hnone.symm) rfl rfl, h.owner.update (p := p) rfl ?_ ho⟩
  · simpa [ppageReclaimPage, ppageInitpp, Mem.modPage, Ppage.init] using ht
  · simp [ppageReclaimPage, ppageInitpp, Mem.modPage, Ppage.init]

theorem PageInv.reuseBuffer (hp : p ∈ m.freeBufs) :
    PageInv (ppageReuseBuffer m p) := by
  have ho : ∀ r, r ≠ p → (ppageReuseBuffer m p).pages r = m.pages r := fun r hr => by
    simp [ppageReuseBuffer, Mem.modPage, hr]
  refine ⟨h.free.takeBufs hp rfl rfl rfl rfl rfl ?_ ho, h.cache.congr rfl rfl rfl rfl
    (fun r => of_update Ppage.buf fun _ => rfl) rfl rfl, h.owner.update (p := p) rfl ?_ ho⟩
  · simp [ppageReuseBuffer, Mem.modPage]
  · simp [ppageReuseBuffer, Mem.modPage]

/-- `ppage_free` on a page that is not free. A mapped page is left as it is. -/
theorem PageInv.freePage (hp : p < m.nppage) (hs : (m.pages p).status ≠ .free) :
    PageInv (ppageFree m p) := by
  by_cases hr : (m.pages p).refcnt = 0
  · refine ⟨h.free.give hp hs hr, ?_, ?_⟩
    · rw [ppageFree_eq hr]
      exact h.cache.congr rfl rfl rfl rfl (fun r => of_update Ppage.buf fun _ => rfl) rfl rfl
    · rw [ppageFree_eq hr]
      exact h.owner.update (p := p) rfl (by simp) fun r hrp => by simp [hrp]
  · rwa [ppageFree_mapped hr]

/-- The status a page is reclaimed with does not matter if it is freed next. -/
theorem ppageFree_reclaimBuffer (hp : p ∈ m.freeBufs) (t t' : PpStatus) :
    ppageFree (ppageReclaimBuffer m p t) p = ppageFree (ppageReclaimBuffer m p t') p := by
  obtain ⟨b, hb, -⟩ := h.bufOf hp
  obtain ⟨n, hn, heq⟩ := ppageReclaimBuffer_eq (t := t) h hp hb
  obtain ⟨n', hn', heq'⟩ := ppageReclaimBuffer_eq (t := t') h hp hb
  have : n = n' := congrArg Mem.siNdpages (hn.symm.trans hn')
  subst this
  rw [heq, heq']
  simp [ppageFree, Mem.modPage, Ppage.init]

theorem PageInv.freeBufs2FreeList (hp : p ∈ m.freeBufs) :
    PageInv (ppageFreeBufs2FreeList m p) := by
  obtain ⟨b, hb, -⟩ := h.bufOf hp
  obtain ⟨n, -, heq⟩ := ppageReclaimBuffer_eq (t := .user) h hp hb
  have hinv := h.reclaimBuffer (t := .user) hp (by simp)
  rw [ppageFreeBufs2FreeList, ppageFree_reclaimBuffer h hp .free .user]
  refine hinv.freePage ?_ ?_
  · rw [heq]; exact ((h.free.memBufs p).mp hp).1
  · rw [heq]; simp [Ppage.init]

/-! ## 3. `ppage_reclaim` and the searches -/

variable (hp : p < m.nppage) (hf : (m.pages p).status = .free)
include hp hf

theorem ppageReclaim_spec :
    (ppageReclaim m p t).pages = update m.pages p ((m.pages p).init t) ∧
    (ppageReclaim m p t).freeList = m.freeList.erase p ∧
    (ppageReclaim m p t).nppage = m.nppage ∧ (ppageReclaim m p t).bcNextPage = m.bcNextPage ∧
    (ppageReclaim m p t).panicked = m.panicked ∧ ∀ c, Cached (ppageReclaim m p t) c →
      Cached m c ∧ (ppageReclaim m p t).bufs c = m.bufs c := by
  cases hb : (m.pages p).buf with
  | none =>
    rw [show ppageReclaim m p t = ppageReclaimPage m p t by simp [ppageReclaim, hb]]
    exact ⟨rfl, rfl, rfl, rfl, rfl, fun c hc => ⟨hc, rfl⟩⟩
  | some b =>
    have hmem : p ∈ m.freeBufs := (h.free.memBufs p).mpr ⟨hp, hf, by simp [hb]⟩
    obtain ⟨n, -, heq⟩ := ppageReclaimBuffer_eq (t := t) h hmem hb
    rw [show ppageReclaim m p t = ppageReclaimBuffer m p t by simp [ppageReclaim, hb], heq]
    have hnot : p ∉ m.freeList := fun hl => by simp [((h.free.memList p).mp hl).2.2] at hb
    refine ⟨rfl, (erase_of_not_mem hnot).symm, rfl, rfl, rfl, fun c hc => ?_⟩
    -- the header that went was erased from its queue; every other one is unchanged
    by_cases hcb : c = b
    · subst hcb
      exact absurd hc (by simp [Cached, (h.cache.nodupQ _).mem_erase_iff])
    · simp only [Cached, update_of_ne hcb, (h.cache.nodupQ _).mem_erase_iff] at hc ⊢
      exact ⟨hc.2, trivial⟩

theorem PageInv.reclaim (ht : t ≠ .free) : PageInv (ppageReclaim m p t) := by
  unfold ppageReclaim
  cases hb : (m.pages p).buf with
  | none => simpa using h.reclaimPage ((h.free.memList p).mpr ⟨hp, hf, hb⟩) ht
  | some b =>
    simpa using h.reclaimBuffer ((h.free.memBufs p).mpr ⟨hp, hf, by simp [hb]⟩) ht

theorem Takes.reclaim (hpin : (m.pages p).pinned = 0) (ht : t ≠ .free) :
    Takes m (ppageReclaim m p t) := by
  obtain ⟨hpages, -, hn, -, hpan, hcached⟩ := ppageReclaim_spec (t := t) h hp hf
  refine ⟨hn, fun r => ?_, hcached, hpan⟩
  rw [hpages]
  by_cases hr : r = p
  · subst hr; exact .inr ⟨hf, hpin, t, ht, by simp⟩
  · exact .inl (by simp [hr])

end

theorem ppageIsReclaimable_free (h : ppageIsReclaimable m p = true) :
    (m.pages p).status = .free ∧ (m.pages p).pinned = 0 := by
  simp only [ppageIsReclaimable, Bool.and_eq_true, decide_eq_true_eq] at h
  exact h.1

variable {r : Except Errno Nat} {userreq : Bool}

theorem ppageFindFree_ok (h : PageInv m) (hf : ppageFindFree m userreq = .ok p) :
    p < m.nppage ∧ (m.pages p).status = .free ∧ (m.pages p).pinned = 0 := by
  rcases ppageFindFree_cases hf with ⟨hmem, hpin⟩ | ⟨hmem, hrec⟩
  · obtain ⟨hlt, hs, -⟩ := (h.free.memList p).mp hmem
    exact ⟨hlt, hs, hpin⟩
  · obtain ⟨hlt, hs, -⟩ := (h.free.memBufs p).mp hmem
    exact ⟨hlt, hs, (ppageIsReclaimable_free hrec).2⟩

/-- **`ppage_alloc`**: some pages may have changed hands, and a page handed out was
    free and is initialised. -/
theorem ppageAlloc_inv (h : PageInv m) (ht : t ≠ .free)
    (heq : ppageAlloc m t userreq = (r, m')) :
    PageInv m' ∧ Takes m m' ∧ ∀ p, r = .ok p →
      p < m.nppage ∧ (m.pages p).status = .free ∧ m'.pages p = (m.pages p).init t := by
  rcases ppageAlloc_cases heq with ⟨e, rfl, rfl⟩ | ⟨p, rfl, hf, rfl⟩
  · exact ⟨h, .refl _, fun p hp => by simp at hp⟩
  · obtain ⟨hlt, hs, hpin⟩ := ppageFindFree_ok h hf
    refine ⟨h.reclaim hlt hs ht, .reclaim h hlt hs hpin ht, fun q hq => ?_⟩
    obtain rfl : p = q := by simpa using hq
    exact ⟨hlt, hs, by rw [(ppageReclaim_spec h hlt hs).1]; simp⟩

theorem ppageAlloc_nextPage (h : PageInv m)
    (heq : ppageAlloc m t userreq = (r, m')) : m'.bcNextPage = m.bcNextPage := by
  rcases ppageAlloc_cases heq with ⟨-, -, rfl⟩ | ⟨p, -, hf, rfl⟩
  · rfl
  · obtain ⟨hlt, hs, -⟩ := ppageFindFree_ok h hf
    exact (ppageReclaim_spec h hlt hs).2.2.2.1

/-- `n` pages from `p` on exist and are reclaimable. -/
def ReclaimableRun (m : Mem) (p n : Nat) : Prop :=
  ∀ i < n, p + i < m.nppage ∧ ppageIsReclaimable m (p + i) = true

/-- Reclaiming a run: each page of it is still free when its turn comes. -/
theorem PageInv.reclaimRun (ht : t ≠ .free) (n : Nat) : ∀ {m : Mem} {p : Nat}, PageInv m →
    (∀ i < n, p + i < m.nppage ∧ (m.pages (p + i)).status = .free ∧
      (m.pages (p + i)).pinned = 0) →
    PageInv (ppageReclaimRun m p t n) ∧ Takes m (ppageReclaimRun m p t n) ∧
      ∀ q, (ppageReclaimRun m p t n).pages q =
        if p ≤ q ∧ q < p + n then (m.pages q).init t else m.pages q := by
  induction n with
  | zero => exact fun h _ => ⟨h, .refl _, fun q => (if_neg (by omega)).symm⟩
  | succ n ih =>
    intro m p h hrun
    obtain ⟨hlt, hs, hpin⟩ := hrun 0 (by omega)
    rw [add_zero] at hlt hs hpin
    obtain ⟨hpages, -, hn, -⟩ := ppageReclaim_spec (t := t) h hlt hs
    obtain ⟨hinv, htakes, hrest⟩ := ih (h.reclaim hlt hs ht) (p := p + 1) fun i hi => by
      have hnext := hrun (i + 1) (by omega)
      rw [hpages, update_of_ne (by omega)]
      rw [hn, add_assoc, add_comm 1 i]
      exact hnext
    refine ⟨hinv, (Takes.reclaim h hlt hs hpin ht).trans htakes, fun q => ?_⟩
    rw [ppageReclaimRun, hrest, hpages]
    by_cases hq : q = p
    · subst hq
      rw [if_neg (by omega), update_self, if_pos (by omega)]
    · have hin : p + 1 ≤ q ∧ q < p + 1 + n ↔ p ≤ q ∧ q < p + (n + 1) := by omega
      simp only [update_of_ne hq, hin]

theorem ppageRunFrom_iff {n : Nat} : ppageRunFrom m p n = true ↔ ReclaimableRun m p n := by
  induction n generalizing p with
  | zero => simp [ppageRunFrom, ReclaimableRun]
  | succ n ih =>
    rw [ppageRunFrom, Bool.and_eq_true, Bool.and_eq_true, decide_eq_true_eq, ih, ReclaimableRun,
      ReclaimableRun, Nat.forall_lt_succ_left]
    simp only [add_zero, add_assoc, add_comm 1]

/-- The second search, which has the `c` pages before page `i`, returns the start of a run if
    there is one. -/
theorem ppageRunScan_spec {n : Nat} (left : Nat) : ∀ {i c : Nat} {s : Option Nat},
    s.getD i + c = i → i + left = m.nppage → c < n → ReclaimableRun m (s.getD i) c →
    (∀ p, ppageRunScan m n i s c left = some p → ReclaimableRun m p n) ∧
    (ppageRunScan m n i s c left = none → ∀ p, s.getD i ≤ p → ¬ReclaimableRun m p n) := by
  induction left with
  | zero =>
    intro i c s hpos hend hc _
    refine ⟨nofun, fun _ p hp hrun => ?_⟩
    have hlast := (hrun (n - 1) (by omega)).1
    omega
  | succ left ih =>
    intro i c s hpos hend hc hrun
    rw [ppageRunScan]
    split
    · rename_i hrec
      have hmore : ReclaimableRun m (s.getD i) (c + 1) :=
        Nat.forall_lt_succ_right.mpr ⟨hrun, by omega, hrec⟩
      split
      · rename_i hn
        refine ⟨fun p hp => ?_, nofun⟩
        obtain rfl : s.getD i = p := by simpa using hp
        exact hn ▸ hmore
      · exact ih (s := some (s.getD i)) (by rw [Option.getD_some]; omega) (by omega) (by omega) hmore
    · -- no run goes over page `i`
      rename_i hrec
      obtain ⟨hfound, hnone⟩ := ih (i := i + 1) (c := 0) (s := none) rfl (by omega) (by omega)
        fun _ hj => absurd hj (by omega)
      refine ⟨hfound, fun hp p hle hall => ?_⟩
      by_cases hpi : i + 1 ≤ p
      · exact hnone hp p hpi hall
      · have hi := (hall (i - p) (by omega)).2
        rw [show p + (i - p) = s.getD i + c by omega] at hi
        exact hrec hi

/-- **`ppage_alloc_n`** finds a run if there is one. -/
theorem ppageAllocN_cases (m : Mem) (t : PpStatus) (n : Nat) :
    let k := if n < 2 then 2 else n
    (∃ p, ReclaimableRun m p k ∧ ppageAllocN m t n = (.ok p, ppageReclaimRun m p t k)) ∨
      (∀ p, ¬ReclaimableRun m p k) ∧ ppageAllocN m t n = (.error .unspecified, m) := by
  unfold ppageAllocN
  dsimp only
  set k := if n < 2 then 2 else n with hk
  have hk2 : 2 ≤ k := by rw [hk]; split <;> omega
  cases hfirst : m.freeList.find? fun p => ppageRunFrom m p k with
  | some p => exact .inl ⟨p, ppageRunFrom_iff.mp (by simpa using find?_some hfirst), rfl⟩
  | none =>
    obtain ⟨hfound, hnone⟩ := ppageRunScan_spec (m := m) (n := k) m.nppage (i := 0) (c := 0)
      (s := none) rfl (by omega) (by omega) fun _ hj => absurd hj (by omega)
    dsimp only
    cases hscan : ppageRunScan m k 0 none 0 m.nppage with
    | some p => exact .inl ⟨p, hfound p hscan, rfl⟩
    | none => exact .inr ⟨fun p => hnone hscan p (Nat.zero_le _), rfl⟩

theorem ppageAllocN_inv (h : PageInv m) (ht : t ≠ .free) (n : Nat) :
    PageInv (ppageAllocN m t n).2 ∧ Takes m (ppageAllocN m t n).2 := by
  rcases ppageAllocN_cases m t n with ⟨p, hrun, heq⟩ | ⟨-, heq⟩
  · rw [heq]
    obtain ⟨hinv, htakes, -⟩ := h.reclaimRun ht _ fun i hi =>
      (hrun i hi).imp_right ppageIsReclaimable_free
    exact ⟨hinv, htakes⟩
  · rw [heq]
    exact ⟨h, .refl m⟩

/-! ## 4. `malloc` and the cache's own pages -/

theorem PageInv.mallocTick (h : PageInv m) {f : Nat → MallocEv} :
    PageInv { m with mallocs := f } :=
  ⟨h.free.congr rfl rfl rfl rfl rfl (fun _ => rfl) fun _ _ => Iff.rfl,
    h.cache.congr rfl rfl rfl rfl (fun _ => rfl) rfl rfl, h.owner⟩

theorem kmalloc_inv (h : PageInv m) {ok : Bool} (heq : kmalloc m = (ok, m')) :
    PageInv m' ∧ Takes m m' := by
  have htick : ∀ f, Takes m { m with mallocs := f } :=
    fun _ => ⟨rfl, fun _ => .inl rfl, fun _ hb => ⟨hb, rfl⟩, rfl⟩
  obtain ⟨f, rfl | ⟨p, hf, rfl⟩⟩ := kmalloc_cases heq
  · exact ⟨h.mallocTick, htick f⟩
  · obtain ⟨hlt, hs, hpin⟩ := ppageFindFree_ok h.mallocTick hf
    have ht : PpStatus.kernel ≠ .free := by decide
    exact ⟨h.mallocTick.reclaim hlt hs ht,
      (htick f).trans (.reclaim h.mallocTick hlt hs hpin ht)⟩

theorem CacheOk.old (h : CacheOk m) (hb : Cached m b ∨ b ∈ m.bcFreeList) :
    b / headersPerPage ≠ m.bcNextPage := by
  have hpos : 0 < headersPerPage := by decide
  have := (div_lt_iff_lt_mul hpos).mpr (h.made b hb)
  omega

/-- The headers of a new window page are fresh, so they join the idle ones. -/
theorem CacheOk.newHeaders (h : CacheOk m) (hlt : m.bcNextPage < 1024) {upt : Nat → BitVec 32} :
    let m' : Mem := { m with
      bcUpt := upt
      bcFreeList := ((List.range headersPerPage).map
        (m.bcNextPage * headersPerPage + ·)).reverse ++ m.bcFreeList
      bufs := fun b =>
        if b / headersPerPage = m.bcNextPage then { m.bufs b with state := bcEmpty } else m.bufs b
      bcNextPage := m.bcNextPage + 1 }
    CacheOk m' := by
  intro m'
  have hfresh : ∀ c, c ∈ (List.range headersPerPage).map (m.bcNextPage * headersPerPage + ·) →
      c / headersPerPage = m.bcNextPage ∧ c < (m.bcNextPage + 1) * headersPerPage := by
    intro c hc
    obtain ⟨i, hi, rfl⟩ := mem_map.mp hc
    have hi : i < 68 := by simpa [headersPerPage] using hi
    simp only [headersPerPage]
    omega
  have hkeep : ∀ c, (m'.bufs c).dev = (m.bufs c).dev ∧ (m'.bufs c).blk64 = (m.bufs c).blk64 ∧
      (m'.bufs c).ppn = (m.bufs c).ppn ∧ (m'.bufs c).dirty = (m.bufs c).dirty := by
    intro c
    simp only [m']
    split <;> exact ⟨rfl, rfl, rfl, rfl⟩
  have hC : ∀ c, Cached m' c ↔ Cached m c := fun c => by
    rw [Cached, (hkeep c).1, (hkeep c).2.1, Cached]
  have hidle : ∀ c, c ∈ m'.bcFreeList ↔
      c ∈ (List.range headersPerPage).map (m.bcNextPage * headersPerPage + ·) ∨
        c ∈ m.bcFreeList := by
    intro c
    rw [mem_append, mem_reverse]
  constructor
  · intro r hr c
    rw [hC, (hkeep c).2.2.1]
    exact h.pageBuf r hr c
  · intro q c hc
    rw [(hkeep c).1, (hkeep c).2.1]
    exact h.hashed q c hc
  · exact h.nodupQ
  · intro c hc
    rw [(hkeep c).2.2.1]
    exact h.ppnLt c ((hC c).mp hc)
  · refine nodup_append.mpr ⟨?_, h.nodupIdle, ?_⟩
    · exact nodup_reverse.mpr (nodup_range.map fun _ _ h => add_left_cancel h)
    · rintro c hc _ hc' rfl
      exact h.old (.inr hc') (hfresh c (mem_reverse.mp hc)).1
  · intro c hc hcc
    rcases (hidle c).mp hc with hc | hc
    · exact h.old (.inl ((hC c).mp hcc)) (hfresh c hc).1
    · exact h.idle c hc ((hC c).mp hcc)
  · intro c hc
    rw [hC, hidle] at hc
    rcases hc with hc | hc | hc
    · exact (h.made c (.inl hc)).trans_le (mul_le_mul_right _ (le_succ _))
    · exact (hfresh c hc).2
    · exact (h.made c (.inr hc)).trans_le (mul_le_mul_right _ (le_succ _))
  · exact hlt
  · intro c hc
    have hc := (hC c).mp hc
    simp only [m', h.old (.inl hc), if_false]
    exact h.valid c hc
  · have hdc : dirtyCount m' = dirtyCount m :=
      familyCount_congr (fun _ => rfl) fun _ c _ => (hkeep c).2.2.2
    rw [hdc]
    exact h.ndirty

theorem bcAllocBufs_inv (h : PageInv m) {r : Except Errno Unit} (heq : bcAllocBufs m = (r, m')) :
    PageInv m' ∧ Takes m m' ∧ (r = .ok () → m'.bcFreeList ≠ []) := by
  unfold bcAllocBufs at heq
  split at heq
  · cases heq
    exact ⟨h, .refl m, by simp⟩
  rename_i hlt
  split at heq
  · rename_i halloc
    cases heq
    obtain ⟨hinv, htake, -⟩ := ppageAlloc_inv h (by simp) halloc
    exact ⟨hinv, htake, by simp⟩
  rename_i p m₁ halloc
  cases heq
  obtain ⟨hinv, htake, -⟩ := ppageAlloc_inv h (by simp) halloc
  have hnext : m₁.bcNextPage = m.bcNextPage := ppageAlloc_nextPage h halloc
  refine ⟨⟨hinv.free.congr rfl rfl rfl rfl rfl (fun _ => rfl) fun _ _ => Iff.rfl,
    hinv.cache.newHeaders (by omega), hinv.owner⟩, htake.trans ⟨rfl, fun _ => .inl rfl, ?_, rfl⟩, ?_⟩
  · intro c hc
    have hc : Cached m₁ c := by
      simp only [Cached] at hc ⊢
      split at hc <;> exact hc
    exact ⟨hc, if_neg (hinv.cache.old (.inl hc))⟩
  · simp [headersPerPage]

/-! ## 5. Filling the cache -/

/-- **`bc_insert64` on a user's page that holds no buffer.** Memory may be taken for
    headers; then one idle header is filled in for the page. -/
theorem bcInsert64_inv (h : PageInv m) {dev : BitVec 32} {blk : BitVec 64} {state : BitVec 8}
    (hu : (m.pages p).status = .user) (hnone : (m.pages p).buf = none)
    (heq : bcInsert64 m dev blk p state = (r, m')) :
    PageInv m' ∧ ∃ m₁, Takes m m₁ ∧ PageInv m₁ ∧ ((∃ e, r = .error e ∧ m' = m₁) ∨
      ∃ b, r = .ok b ∧ b ∈ m₁.bcFreeList ∧ m' = bcFill m₁ b dev blk p state) := by
  have hs : (m.pages p).status ≠ .free := by simp [hu]
  have hfill : ∀ {m₁ : Mem} {b : Nat}, PageInv m₁ → Takes m m₁ → p < m.nppage →
      b ∈ m₁.bcFreeList → PageInv (bcFill m₁ b dev blk p state) := by
    intro m₁ b hinv htake hlt hb
    have hpage := htake.inUse hs
    refine ⟨hinv.free.congr rfl rfl rfl rfl rfl (fun r => of_update Ppage.status fun _ => rfl)
      fun r hr => ?_,
      hinv.cache.fill hb (htake.nppage ▸ hlt) (by rw [hpage, hnone]),
      hinv.owner.update (p := p) rfl ?_ fun r hr => ?_⟩
    · have hrp : r ≠ p := fun hrp => hs (by rw [← hpage, ← hrp]; exact hr)
      simp [bcFill, Mem.modPage, Mem.modBuf, hrp]
    · simp [bcFill, Mem.modPage, Mem.modBuf, hpage, hu]
    · simp [bcFill, Mem.modPage, Mem.modBuf, hr]
  unfold bcInsert64 at heq
  split at heq
  · cases heq
    exact ⟨h, m, .refl m, h, .inl ⟨_, rfl, rfl⟩⟩
  rename_i hlt
  rw [not_le] at hlt
  split at heq
  · rename_i b rest hfree
    cases heq
    have hb : b ∈ m.bcFreeList := by simp [hfree]
    exact ⟨hfill h (.refl m) hlt hb, m, .refl m, h, .inr ⟨b, rfl, hb, rfl⟩⟩
  split at heq
  · rename_i e _ halloc
    cases heq
    obtain ⟨hinv, htake, -⟩ := bcAllocBufs_inv h halloc
    exact ⟨hinv, m', htake, hinv, .inl ⟨e, rfl, rfl⟩⟩
  rename_i m₁ halloc
  obtain ⟨hinv, htake, hne⟩ := bcAllocBufs_inv h halloc
  split at heq
  · rename_i b rest hfree
    cases heq
    have hb : b ∈ m₁.bcFreeList := by simp [hfree]
    exact ⟨hfill hinv htake hlt hb, m₁, htake, hinv, .inr ⟨b, rfl, hb, rfl⟩⟩
  · rename_i hfree
    exact absurd hfree (hne rfl)

/-- What `bc_insert64` makes of the page it fills. -/
def Ppage.fill (pp : Ppage) (b : Nat) : Ppage :=
  { pp with buf := some b, acl := aclInit pp.acl pp.acl.length }

theorem bcFill_pages (m : Mem) (b : Nat) (dev : BitVec 32) (blk : BitVec 64) (p : Nat)
    (state : BitVec 8) :
    (bcFill m b dev blk p state).pages = update m.pages p ((m.pages p).fill b) := rfl

section FreeFields

variable (m : Mem) (p : Nat)

@[simp] theorem ppageFree_nppage : (ppageFree m p).nppage = m.nppage := by
  unfold ppageFree; split_ifs <;> rfl

@[simp] theorem ppageFree_bufs : (ppageFree m p).bufs = m.bufs := by
  unfold ppageFree; split_ifs <;> rfl

@[simp] theorem ppageFree_bcQs : (ppageFree m p).bcQs = m.bcQs := by
  unfold ppageFree; split_ifs <;> rfl

@[simp] theorem ppageFree_panicked : (ppageFree m p).panicked = m.panicked := by
  unfold ppageFree; split_ifs <;> rfl

theorem ppageFree_pages (r : Nat) : (ppageFree m p).pages r =
    if r = p ∧ (m.pages p).refcnt = 0 then { m.pages p with status := .free }
    else m.pages r := by
  by_cases hr : (m.pages p).refcnt = 0
  · rw [ppageFree_eq hr]
    by_cases hrp : r = p
    · subst hrp; simp [hr]
    · simp [hrp]
  · rw [ppageFree_mapped hr, if_neg fun hx => hr hx.2]

theorem ppageFree_pinned (q : Nat) : ((ppageFree m p).pages q).pinned = (m.pages q).pinned := by
  rw [ppageFree_pages]
  split
  · rename_i hq
    rw [hq.1]
  · rfl

end FreeFields

/-! ## 6. A page that comes back

Some paths take a page and put it back under a new buffer, or drop a buffer and
put the page back. `Frame` is the frame condition for those too: a page that
changed was free, and it is **blank** — nobody maps it and nothing limits it. -/

/-- Nobody maps the page and its limits admit everything. -/
structure Blank (pp : Ppage) : Prop where
  refcnt : pp.refcnt = 0
  readers : pp.readers = 0
  writers : pp.writers = 0
  vpl : pp.vpl = []
  state : pp.state = ⟨ppAccessAll, ppAccessAll⟩

theorem Ppage.blank_init (pp : Ppage) (t : PpStatus) : Blank (pp.init t) :=
  ⟨rfl, rfl, rfl, rfl, rfl⟩

/-- Only free, unpinned pages changed. They are blank, and free if they hold a buffer. -/
structure Frame (m m' : Mem) : Prop where
  nppage : m'.nppage = m.nppage
  pages : ∀ p, m'.pages p = m.pages p ∨
    ((m.pages p).status = .free ∧ (m.pages p).pinned = 0 ∧ Blank (m'.pages p) ∧
      (m'.pages p).pinned = 0 ∧ ((m'.pages p).buf = none ∨ (m'.pages p).status = .free))
  panicked : m'.panicked = m.panicked

theorem Takes.frame (h : Takes m m') : Frame m m' where
  nppage := h.nppage
  pages p := (h.pages p).imp_right fun ⟨hf, hpin, t, _, he⟩ =>
    ⟨hf, hpin, he ▸ Ppage.blank_init _ t, he ▸ hpin, .inl (by rw [he]; rfl)⟩
  panicked := h.panicked

theorem Frame.inUse (h : Frame m m') (hp : (m.pages p).status ≠ .free) :
    m'.pages p = m.pages p :=
  (h.pages p).resolve_right fun hx => hp hx.1

theorem Frame.pinned (h : Frame m m') (hp : (m.pages p).pinned ≠ 0) :
    m'.pages p = m.pages p :=
  (h.pages p).resolve_right fun hx => hp hx.2.1

theorem Frame.putBack {m₁ m₂ : Mem} (h : Takes m m₁) (hf : (m.pages p).status = .free)
    (hpin : (m.pages p).pinned = 0) (hpage : Blank (m₂.pages p)) (hpin₂ : (m₂.pages p).pinned = 0)
    (ho : ∀ r, r ≠ p → m₂.pages r = m₁.pages r) (hn : m₂.nppage = m₁.nppage)
    (hpan : m₂.panicked = m₁.panicked) : Frame m (ppageFree m₂ p) where
  nppage := by rw [ppageFree_nppage, hn, h.nppage]
  pages r := by
    rw [ppageFree_pages]
    by_cases hr : r = p
    · subst hr
      rw [if_pos ⟨rfl, hpage.refcnt⟩]
      exact .inr ⟨hf, hpin, ⟨hpage.refcnt, hpage.readers, hpage.writers, hpage.vpl,
        hpage.state⟩, hpin₂, .inr rfl⟩
    · rw [if_neg fun hx => hr hx.1, ho r hr]
      exact h.frame.pages r
  panicked := by rw [ppageFree_panicked, hpan, h.panicked]

/-- **`ppage_get_reclaimable_buffer`**: a free page is taken, filled and put back on
    `free_bufs`; if no header is to be had it goes back empty. -/
theorem ppageGetReclaimableBuffer_inv (h : PageInv m) {dev : BitVec 32} {blk : BitVec 64}
    {state : BitVec 8}
    (heq : ppageGetReclaimableBuffer m dev blk state userreq = (r, m')) :
    PageInv m' ∧ Frame m m' ∧
    (∀ c, Cached m' c → .ok c = r ∨ (Cached m c ∧ m'.bufs c = m.bufs c)) ∧
    ∀ b, r = .ok b → Cached m' b ∧ (m'.bufs b).dev = dev ∧ (m'.bufs b).blk64 = blk ∧
      (m.pages (m'.bufs b).ppn).status = .free ∧ (m'.pages (m'.bufs b).ppn).status = .free ∧
      (m.pages (m'.bufs b).ppn).pinned = 0 ∧ (m'.bufs b).ppn < m.nppage ∧
      (m'.bufs b).writecnt = 0 ∧ (m'.bufs b).state = bcValid ||| state.setWidth 32 ∧
      (m'.bufs b).dirty = false := by
  obtain ⟨e, rfl, halloc⟩ | ⟨p, m₁, m₃, halloc, hins, rfl⟩ := ppageGetReclaimableBuffer_cases heq
  · obtain ⟨hinv, htake, -⟩ := ppageAlloc_inv h (by simp) halloc
    exact ⟨hinv, htake.frame, fun c hc => .inr (htake.cached c hc), by simp⟩
  obtain ⟨hinv, htake, hp⟩ := ppageAlloc_inv h (by simp) halloc
  obtain ⟨hlt, hfree, hpage⟩ := hp p rfl
  have hpin : (m.pages p).pinned = 0 := by
    rcases htake.pages p with he | hx
    · rw [hpage] at he
      have := congrArg Ppage.status he
      simp [Ppage.init, hfree] at this
    · exact hx.2.1
  have hu : (m₁.pages p).status = .user := by rw [hpage]; rfl
  have hs : (m₁.pages p).status ≠ .free := by simp [hu]
  have hnone : (m₁.pages p).buf = none := by rw [hpage]; rfl
  obtain ⟨hinv₂, m₂, htake₂, hcache₂, hcase⟩ := bcInsert64_inv hinv hu hnone hins
  have hpage₂ : m₂.pages p = (m.pages p).init .user := (htake₂.inUse hs).trans hpage
  have hall := htake.trans htake₂
  rcases hcase with ⟨e, rfl, rfl⟩ | ⟨b₀, rfl, hidle, rfl⟩
  · refine ⟨hinv₂.freePage (by rw [hall.nppage]; exact hlt) ?_, ?_, ?_, by simp⟩
    · rw [hpage₂]; simp [Ppage.init]
    · refine .putBack hall hfree hpin ?_ ?_ (fun _ _ => rfl) rfl rfl
      · rw [hpage₂]; exact Ppage.blank_init _ _
      · rw [hpage₂]; exact hpin
    intro c hc
    simp only [Cached, ppageFree_bufs, ppageFree_bcQs] at hc ⊢
    exact .inr (hall.cached c hc)
  · have hfilled : (bcFill m₂ b₀ dev blk p state).pages p
        = ((m.pages p).init .user).fill b₀ := by
      rw [bcFill_pages, update_self, hpage₂]
    have hbuf : (bcFill m₂ b₀ dev blk p state).bufs b₀ =
        { dev := dev, blk64 := blk, user1 := 0, user2 := 0, ppn := p, dirty := false,
          tainted := false, writecnt := 0, state := bcValid ||| state.setWidth 32 } := by
      simp [bcFill, Mem.modBuf, Mem.modPage]
    refine ⟨hinv₂.freePage ?_ ?_, ?_, ?_, ?_⟩
    · show p < m₂.nppage
      rw [hall.nppage]; exact hlt
    · rw [hfilled]; simp [Ppage.init, Ppage.fill]
    · refine .putBack hall hfree hpin ?_ ?_ ?_ rfl rfl
      · rw [hfilled]; exact ⟨rfl, rfl, rfl, rfl, rfl⟩
      · rw [hfilled]; exact hpin
      · intro q hq
        rw [bcFill_pages, update_of_ne hq]
    · intro c hc
      simp only [Cached, ppageFree_bufs, ppageFree_bcQs] at hc ⊢
      rcases (bcFill_cached hcache₂.cache hidle dev blk p state c).mp hc with rfl | hcc
      · exact .inl rfl
      have hcb : c ≠ b₀ := fun hcb => hcache₂.cache.idle b₀ hidle (hcb ▸ hcc)
      obtain ⟨h1, h2⟩ := hall.cached c hcc
      refine .inr ⟨h1, ?_⟩
      rw [← h2]
      simp [bcFill, Mem.modBuf, Mem.modPage, hcb]
    · intro b hb
      obtain rfl : b₀ = b := by simpa using hb
      have hc := (bcFill_cached hcache₂.cache hidle dev blk p state b₀).mpr (.inl rfl)
      simp only [Cached, ppageFree_bufs, ppageFree_bcQs, hbuf] at hc ⊢
      refine ⟨hc, trivial, trivial, hfree, ?_, hpin, hlt, trivial, trivial, trivial⟩
      rw [ppageFree_pages, if_pos ⟨rfl, by rw [hfilled]; rfl⟩]

/-! ## 7. A buffer dropped -/

/-- **`ppage_free_bufs_2_free_list`**: the page is blank, its buffer is gone from the
    cache, and nothing else moved. -/
theorem ppageFreeBufs2FreeList_spec (h : PageInv m) (hp : p ∈ m.freeBufs)
    (hb : (m.pages p).buf = some b) :
    (ppageFreeBufs2FreeList m p).pages = update m.pages p ((m.pages p).init .free) ∧
    (ppageFreeBufs2FreeList m p).nppage = m.nppage ∧
    (ppageFreeBufs2FreeList m p).panicked = m.panicked ∧
    (∀ c, c ≠ b → (ppageFreeBufs2FreeList m p).bufs c = m.bufs c) ∧
    ∀ c, Cached (ppageFreeBufs2FreeList m p) c ↔ c ≠ b ∧ Cached m c ∧
      (ppageFreeBufs2FreeList m p).bufs c = m.bufs c := by
  obtain ⟨n, -, heq⟩ := ppageReclaimBuffer_eq (t := .free) h hp hb
  unfold ppageFreeBufs2FreeList
  refine ⟨?_, ?_, ?_, fun c hc => ?_, fun c => ?_⟩
  · funext r
    rw [ppageFree_pages, heq]
    by_cases hr : r = p
    · subst hr; simp [Ppage.init]
    · simp [hr]
  · rw [ppageFree_nppage, heq]
  · rw [ppageFree_panicked, heq]
  · rw [ppageFree_bufs, heq]
    exact update_of_ne hc _ _
  · simp only [Cached, ppageFree_bufs, ppageFree_bcQs, heq]
    by_cases hc : c = b
    · subst hc; simp [(h.cache.nodupQ _).mem_erase_iff]
    · simp [hc, (h.cache.nodupQ _).mem_erase_iff]

theorem Frame.freeBufs2FreeList (h : PageInv m) (hp : p ∈ m.freeBufs)
    (hpin : (m.pages p).pinned = 0) : Frame m (ppageFreeBufs2FreeList m p) := by
  obtain ⟨b, hb, -⟩ := h.bufOf hp
  obtain ⟨hpages, hn, hpan, -⟩ := ppageFreeBufs2FreeList_spec h hp hb
  refine ⟨hn, fun r => ?_, hpan⟩
  rw [hpages]
  by_cases hr : r = p
  · subst hr
    rw [update_self]
    exact .inr ⟨((h.free.memBufs r).mp hp).2.1, hpin, Ppage.blank_init _ _, hpin, .inl rfl⟩
  · rw [update_of_ne hr]
    exact .inl rfl

/-- A block may go: it is clean, and its page is neither mapped nor pinned. -/
def Flushable (m : Mem) (b : Nat) : Prop :=
  (m.pages (m.bufs b).ppn).status ≠ .user ∧ (m.pages (m.bufs b).ppn).pinned = 0 ∧
    (m.bufs b).dirty = false

/-- **`bc_flush_by_buf`** on a cached buffer. -/
theorem bcFlushByBuf_cases (h : PageInv m) (hb : Cached m b) :
    ¬Flushable m b ∧ bcFlushByBuf m (some b) = m ∨
      Flushable m b ∧ bcFlushByBuf m (some b) = ppageFreeBufs2FreeList m (m.bufs b).ppn ∧
        (m.bufs b).ppn ∈ m.freeBufs ∧ (m.pages (m.bufs b).ppn).buf = some b := by
  have hlt := h.cache.ppnLt b hb
  have hbuf := (h.cache.pageBuf _ hlt b).mpr ⟨hb, rfl⟩
  have hs := h.owner _ hlt (by simp [hbuf])
  have hassert : m.assert ((m.pages (m.bufs b).ppn).status = .free ||
      (m.pages (m.bufs b).ppn).status = .user) = m := by
    rcases hs with hs | hs <;> simp [Mem.assert, hs]
  simp only [bcFlushByBuf, hassert]
  split
  · rename_i hcond
    exact .inl ⟨fun hf => hcond.elim hf.1 fun hc => hc.elim (· hf.2.1) (by simp [hf.2.2]), rfl⟩
  · rename_i hcond
    simp only [not_or, not_not, Bool.not_eq_true] at hcond
    have hmem := (h.free.memBufs _).mpr ⟨hlt, hs.resolve_right hcond.1, by simp [hbuf]⟩
    exact .inr ⟨hcond, rfl, hmem, hbuf⟩

end Exokernel
