import Exokernel.Proof.ReadExtent
import Exokernel.Proof.Microparts

/-!
# Blocks and pages in bijection — the buffer cache along every run

Four calls put blocks into the cache and each has its own idea of what has to be checked first:

* `sys_bc_insert64` looks the block up, but not whether the page holds a block already. It then
  forgets the old one, which stays on its queue;
* `sys_micropart_init` looks up nothing, and puts a second header under the freemap's name;
* `sys_bc_read_and_insert` looks its blocks up, and may lose a page to its own `malloc` before
  it has pinned it. The assertions of its clean-up then fail.

`CacheStep` is what the other calls do, and what these do where nothing of the kind happens.
**A run whose calls stay clear of the three leaves names unique, pages and headers pointing at
each other, and every assertion true.**
-/
set_option autoImplicit false

namespace Exokernel

open Option List Function

/-! ## 1. One call -/

/-- The cache after a call that pinned the pages in `ps`. -/
structure CacheStep (m m' : Mem) (ps : List Nat) : Prop where
  inv : CacheInv m'
  calm : Calm m m'
  pins : Pins m m' ps
  panicked : m'.panicked = m.panicked

section
variable {m m' m'' : Mem} {b p : Nat} {ps qs : List Nat}

theorem CacheStep.refl (h : CacheInv m) : CacheStep m m [] :=
  ⟨h, .refl m, fun p => by simp, rfl⟩

theorem CacheStep.trans (h : CacheStep m m' ps) (h' : CacheStep m' m'' qs) :
    CacheStep m m'' (ps ++ qs) :=
  ⟨h'.inv, h.calm.trans h'.calm, h.pins.trans h'.pins, h'.panicked.trans h.panicked⟩

theorem Takes.step (ht : Takes m m') (h : CacheInv m) (hinv : PageInv m') : CacheStep m m' [] :=
  ⟨h.takes hinv ht, ht.calm, ht.pins, ht.panicked⟩

theorem CacheInv.modPageStep (h : CacheInv m) (p : Nat) {f : Ppage → Ppage}
    (hf : ∀ pp, (f pp).status = pp.status ∧ (f pp).buf = pp.buf ∧ (f pp).pinned = pp.pinned) :
    CacheStep m (m.modPage p f) [] := by
  refine ⟨h.modPage p (fun pp => (hf pp).1) fun pp => (hf pp).2.1,
    .modPage m p (fun pp => (hf pp).2.1) fun pp => (hf pp).2.2.ge, fun q => ?_, rfl⟩
  exact of_update Ppage.pinned fun _ => (hf _).2.2

theorem CacheInv.freeStep (h : CacheInv m) (hlt : p < m.nppage) (hs : (m.pages p).status ≠ .free)
    (hp : p ≠ 0) : CacheStep m (ppageFree m p) [] :=
  ⟨h.freePage hlt hs hp, .freePage m p, fun q => by rw [ppageFree_pinned]; simp,
    ppageFree_panicked m p⟩

theorem CacheInv.reuseStep (h : CacheInv m) (hp : p ∈ m.freeBufs) :
    CacheStep m (ppageReuseBuffer m p) [] := by
  have hinv := h.page.reuseBuffer hp
  have hpage : ∀ q, ((ppageReuseBuffer m p).pages q).buf = (m.pages q).buf ∧
      ((ppageReuseBuffer m p).pages q).pinned = (m.pages q).pinned := by
    intro q
    exact ⟨of_update Ppage.buf fun _ => rfl, of_update Ppage.pinned fun _ => rfl⟩
  have hne : p ≠ 0 := by
    rintro rfl
    exact h.zero ((h.page.free.memBufs 0).mp hp).2.1
  refine ⟨⟨hinv, h.keys, ?_⟩, ⟨rfl, fun q => (hpage q).2.ge, fun q _ _ => (hpage q).1,
    fun c hc => .inl ⟨hc, .refl _⟩⟩, fun q => by simp [(hpage q).2], rfl⟩
  simpa [ppageReuseBuffer, Mem.modPage, update_of_ne hne.symm] using h.zero

/-! ### The flush -/

/-- Of the blocks in `S`, those that may go are dropped. The others and their pages are as they
    were. -/
structure Drops (m m' : Mem) (S : Nat → BcEntry → Prop) : Prop where
  step : CacheStep m m' []
  cached : ∀ c, Cached m' c ↔ Cached m c ∧ ¬(S c (m.bufs c) ∧ Flushable m c)
  same : ∀ c, Cached m' c →
    m'.bufs c = m.bufs c ∧ m'.pages (m.bufs c).ppn = m.pages (m.bufs c).ppn

variable {S T : Nat → BcEntry → Prop}

theorem Drops.refl (h : CacheInv m) : Drops m m fun _ _ => False :=
  ⟨.refl h, fun _ => by simp, fun _ _ => ⟨rfl, rfl⟩⟩

theorem Drops.congr (h : Drops m m' S)
    (hST : ∀ c, Cached m c → (S c (m.bufs c) ↔ T c (m.bufs c))) : Drops m m' T where
  step := h.step
  cached c := by
    rw [h.cached]
    exact and_congr_right fun hc => by rw [hST c hc]
  same := h.same

theorem Drops.trans (h : Drops m m' S) (h' : Drops m' m'' T) :
    Drops m m'' fun c e => S c e ∨ T c e where
  step := h.step.trans h'.step
  cached c := by
    rw [h'.cached, h.cached, and_assoc]
    refine and_congr_right fun hc => ?_
    by_cases hS : S c (m.bufs c) ∧ Flushable m c
    · simp [hS]
    obtain ⟨he, hp⟩ := h.same c ((h.cached c).mpr ⟨hc, hS⟩)
    have hf : Flushable m' c ↔ Flushable m c := by
      rw [Flushable, he, hp]
      rfl
    rw [he, hf]
    tauto
  same c hc := by
    obtain ⟨he, hp⟩ := h.same c ((h'.cached c).mp hc).1
    obtain ⟨he', hp'⟩ := h'.same c hc
    rw [he] at he' hp'
    exact ⟨he', hp'.trans hp⟩

theorem CacheInv.flushOne (h : CacheInv m) (hb : Cached m b) :
    Drops m (bcFlushByBuf m (some b)) fun c _ => c = b := by
  rcases bcFlushByBuf_cases h.page hb with ⟨hnot, he⟩ | ⟨hf, he, hmem, hbuf⟩
  · rw [he]
    refine ⟨.refl h, fun c => ⟨fun hc => ⟨hc, ?_⟩, And.left⟩, fun _ _ => ⟨rfl, rfl⟩⟩
    rintro ⟨rfl, hf⟩
    exact hnot hf
  rw [he]
  obtain ⟨hpages, -, hpan, hsame, hcached⟩ := ppageFreeBufs2FreeList_spec h.page hmem hbuf
  refine ⟨⟨h.drop hmem, .drop h.page hmem hf.2.1,
    (Frame.freeBufs2FreeList h.page hmem hf.2.1).pins, hpan⟩, fun c => ?_, fun c hc => ?_⟩
  · rw [hcached]
    refine ⟨fun hc => ⟨hc.2.1, fun hcb => hc.1 hcb.1⟩, fun ⟨hc, hcb⟩ => ?_⟩
    have hne : c ≠ b := by
      rintro rfl
      exact hcb ⟨rfl, hf⟩
    exact ⟨hne, hc, hsame c hne⟩
  · obtain ⟨hne, hc', he'⟩ := (hcached c).mp hc
    refine ⟨he', ?_⟩
    rw [hpages, update_of_ne]
    intro hp
    have hbuf' := (h.bufOf hc').2
    rw [hp, hbuf] at hbuf'
    exact hne (some.inj hbuf').symm

/-- **A queue is flushed** from a copy of its links. What is still on the copy is still cached. -/
theorem flushQueue_drops (sel : BcEntry → Bool) (bs : List Nat) :
    ∀ {m : Mem}, CacheInv m → bs.Nodup → (∀ c ∈ bs, Cached m c) →
      Drops m (flushQueue sel bs m) fun c e => c ∈ bs ∧ sel e = true := by
  induction bs with
  | nil => exact fun h _ _ => (Drops.refl h).congr fun c _ => by simp
  | cons b bs ih =>
    intro m h hnd hall
    obtain ⟨hnot, hnd⟩ := nodup_cons.mp hnd
    have hb := hall b mem_cons_self
    have hone : Drops m (if sel (m.bufs b) then bcFlushByBuf m (some b) else m) fun c e =>
        c = b ∧ sel e = true := by
      split
      · rename_i hsel
        refine (h.flushOne hb).congr fun c _ => ⟨?_, And.left⟩
        rintro rfl
        exact ⟨rfl, hsel⟩
      · rename_i hsel
        refine (Drops.refl h).congr fun c _ => ⟨False.elim, ?_⟩
        rintro ⟨rfl, hc⟩
        exact hsel hc
    refine (hone.trans (ih hone.step.inv hnd fun c hc => ?_)).congr fun c _ => ?_
    · refine (hone.cached c).mpr ⟨hall c (mem_cons_of_mem b hc), ?_⟩
      rintro ⟨⟨rfl, -⟩, -⟩
      exact hnot hc
    · rw [mem_cons, or_and_right]

theorem flushQueues_drops (sel : BcEntry → Bool) (qs : List (Fin bcNumQs)) :
    ∀ {m : Mem}, CacheInv m →
      Drops m (flushQueues sel qs m) fun _ e => bcHash64 e.dev e.blk64 ∈ qs ∧ sel e = true := by
  induction qs with
  | nil => exact fun h => (Drops.refl h).congr fun c _ => by simp
  | cons q qs ih =>
    intro m h
    have hcache := h.page.cache
    have hone := flushQueue_drops sel (m.bcQs q) h (hcache.nodupQ q) fun c hc =>
      hcache.cached_iff hc
    refine (hone.trans (ih hone.step.inv)).congr fun c hc => ?_
    have hq : c ∈ m.bcQs q ↔ bcHash64 (m.bufs c).dev (m.bufs c).blk64 = q :=
      ⟨hcache.hashed q c, fun hh => hh ▸ hc⟩
    rw [hq, mem_cons, or_and_right]

theorem flushBlocks_drops (dev : BitVec 32) (blk : BitVec 64) (num : Nat) :
    ∀ {i : Nat} {m : Mem}, CacheInv m → Drops m (flushBlocks dev blk num i m) fun _ e =>
      e.dev = dev ∧ ∃ j, i ≤ j ∧ j < i + num ∧ e.blk64 = blk + BitVec.ofNat 64 j := by
  induction num with
  | zero =>
    exact fun h => (Drops.refl h).congr fun c _ => by simp; omega
  | succ num ih =>
    intro i m h
    have hone : Drops m (bcFlushByBuf m (bcLookup64 m dev (blk + BitVec.ofNat 64 i))) fun _ e =>
        e.dev = dev ∧ e.blk64 = blk + BitVec.ofNat 64 i := by
      cases hl : bcLookup64 m dev (blk + BitVec.ofNat 64 i) with
      | none =>
        refine (Drops.refl h).congr fun c hc => ⟨False.elim, fun ⟨hdev, hblk⟩ => ?_⟩
        exact (bcLookup64_eq_none h.page.cache).mp hl c hc hdev hblk
      | some b =>
        obtain ⟨hb, hdev, hblk⟩ := bcLookup64_some h.page.cache hl
        refine (h.flushOne hb).congr fun c hc => ⟨?_, fun ⟨hdev', hblk'⟩ => ?_⟩
        · rintro rfl
          exact ⟨hdev, hblk⟩
        · exact h.keys c b hc hb (hdev'.trans hdev.symm) (hblk'.trans hblk.symm)
    refine (hone.trans (ih (i := i + 1) hone.step.inv)).congr fun c _ => ?_
    rw [← and_or_left]
    refine and_congr_right fun _ => ⟨?_, ?_⟩
    · rintro (hblk | ⟨j, hi, hj, hblk⟩)
      · exact ⟨i, le_rfl, by omega, hblk⟩
      · exact ⟨j, by omega, by omega, hblk⟩
    · rintro ⟨j, hi, hj, hblk⟩
      rcases hi.eq_or_lt with rfl | hi
      · exact .inl hblk
      · exact .inr ⟨j, hi, by omega, hblk⟩

theorem sysBcFlush64_step {k : Kernel} (h : CacheInv k.mem) (d : BitVec 32) (blk : BitVec 64)
    (num : BitVec 32) : CacheStep k.mem (sysBcFlush64 k d blk num).mem [] := by
  unfold sysBcFlush64
  split
  · split
    · rw [Kernel.setMem_mem]
      exact (flushQueues_drops _ _ h).step
    · exact (flushBlocks_drops d blk _ h).step
  · split
    · rw [Kernel.setMem_mem]
      exact (flushQueues_drops _ _ h).step
    · rw [Kernel.setMem_mem]
      exact (flushQueues_drops _ _ h).step

/-- The blocks `b, …, b + num - 1` of a device. -/
def InExtent (d : BitVec 32) (b : BitVec 64) (num : Nat) (e : BcEntry) : Prop :=
  e.dev = d ∧ b.toNat ≤ e.blk64.toNat ∧ e.blk64.toNat < b.toNat + num

/-- What a range flush drops. The scan of the queues finds nothing if the end of the range is not
    a 64-bit number. -/
theorem sysBcFlush64_drops {k : Kernel} {d : BitVec 32} {b : BitVec 64} {num : BitVec 32}
    (h : CacheInv k.mem) (hd : d.toNat ≠ bcSyncAny) (hb : b.toNat ≠ bcSyncAny)
    (hle : b.toNat + num.toNat ≤ 2 ^ 64) :
    Drops k.mem (sysBcFlush64 k d b num).mem fun _ e => InExtent d b num.toNat e ∧
      ¬(bcNumQs < num.toNat ∧ b.toNat + num.toNat = 2 ^ 64) := by
  rw [sysBcFlush64, if_pos ⟨hd, hb⟩]
  split
  · rename_i hnum
    rw [Kernel.setMem_mem]
    refine (flushQueues_drops _ _ h).congr fun c _ => ?_
    have hlt := (k.mem.bufs c).blk64.isLt
    rw [and_iff_right (mem_finRange _)]
    simp only [Bool.and_eq_true, decide_eq_true_eq, BitVec.le_def, BitVec.lt_def, BitVec.toNat_add,
      BitVec.toNat_setWidth, InExtent]
    refine ⟨fun ⟨⟨hge, hend⟩, hdev⟩ => ⟨⟨hdev, hge, by omega⟩, fun hx => by omega⟩, ?_⟩
    rintro ⟨⟨hdev, hge, hin⟩, hend⟩
    have hne : b.toNat + num.toNat ≠ 2 ^ 64 := fun he => hend ⟨hnum, he⟩
    exact ⟨⟨hge, by omega⟩, hdev⟩
  · rename_i hnum
    refine (flushBlocks_drops d b _ h).congr fun c _ => ?_
    simp only [hnum, false_and, not_false_eq_true, and_true, InExtent]
    refine and_congr_right fun _ => ⟨?_, fun ⟨hge, hlt⟩ => ?_⟩
    · rintro ⟨j, -, hj, hblk⟩
      rw [hblk, BitVec.toNat_add, BitVec.toNat_ofNat]
      omega
    · refine ⟨(k.mem.bufs c).blk64.toNat - b.toNat, Nat.zero_le _, by omega, BitVec.eq_of_toNat_eq ?_⟩
      rw [BitVec.toNat_add, BitVec.toNat_ofNat]
      omega

end

/-! ### Insertion -/

section
variable {m m' : Mem} {dev : BitVec 32} {blk : BitVec 64} {p : Nat} {state : BitVec 8}

/-- A lookup that finds nothing finds nothing after pages were taken. -/
theorem Takes.lookup_none (ht : Takes m m') (h : CacheInv m) (h' : CacheInv m')
    (hnone : bcLookup64 m dev blk = none) : bcLookup64 m' dev blk = none := by
  rw [bcLookup64_eq_none h'.page.cache]
  intro c hc hdev hblk
  obtain ⟨hc', he⟩ := ht.cached c hc
  rw [he] at hdev hblk
  exact (bcLookup64_eq_none h.page.cache).mp hnone c hc' hdev hblk

/-- **`bc_insert64`** on a page without a block, under a name that is not in use. -/
theorem CacheInv.insertStep (h : CacheInv m) (hu : (m.pages p).status = .user)
    (hbuf : (m.pages p).buf = none) (hnone : bcLookup64 m dev blk = none) {r : Except Errno Nat}
    (heq : bcInsert64 m dev blk p state = (r, m')) :
    CacheInv m' ∧ Pins m m' [] ∧ m'.panicked = m.panicked ∧
      ((bcValid ||| state.setWidth 32) &&& bcGoingOut = 0#32 → Calm m m') := by
  obtain ⟨hinv, m₁, ht, hinv₁, hcase⟩ := bcInsert64_inv h.page hu hbuf heq
  have h₁ := h.takes hinv₁ ht
  rcases hcase with ⟨e, -, rfl⟩ | ⟨b, -, hb, rfl⟩
  · exact ⟨h₁, ht.pins, ht.panicked, fun _ => ht.calm⟩
  have hpage : m₁.pages p = m.pages p := ht.inUse (by rw [hu]; decide)
  have hpages : ∀ q, q ≠ p → (bcFill m₁ b dev blk p state).pages q = m₁.pages q :=
    fun q hq => by rw [bcFill_pages, update_of_ne hq]
  have hpin : ∀ q, ((bcFill m₁ b dev blk p state).pages q).pinned = (m₁.pages q).pinned := by
    intro q
    by_cases hq : q = p
    · subst hq
      rw [bcFill_pages, update_self]
      rfl
    · rw [hpages q hq]
  have hbufs : ∀ c, c ≠ b → (bcFill m₁ b dev blk p state).bufs c = m₁.bufs c := fun c hc => by
    simp [bcFill, Mem.modBuf, Mem.modPage, hc]
  have hcached := bcFill_cached hinv₁.cache hb dev blk p state
  have hold : ∀ c, Cached (bcFill m₁ b dev blk p state) c →
      c = b ∨ Cached m₁ c ∧ (bcFill m₁ b dev blk p state).bufs c = m₁.bufs c := by
    intro c hc
    by_cases hcb : c = b
    · exact .inl hcb
    · exact .inr ⟨((hcached c).mp hc).resolve_left hcb, hbufs c hcb⟩
  have hself : ((bcFill m₁ b dev blk p state).bufs b).dev = dev ∧
      ((bcFill m₁ b dev blk p state).bufs b).blk64 = blk := by
    simp [bcFill, Mem.modBuf, Mem.modPage]
  refine ⟨⟨hinv, ?_, ?_⟩, fun q => by simp [hpin q, ht.pinned_eq q], ht.panicked, fun hquiet => ?_⟩
  · exact h₁.keys.ofNew ((bcLookup64_eq_none hinv₁.cache).mp (ht.lookup_none h h₁ hnone)) hself
      hold
  · by_cases hp0 : p = 0
    · rw [bcFill_pages, hp0, update_self]
      exact h₁.zero
    · rw [hpages 0 (Ne.symm hp0)]
      exact h₁.zero
  refine ht.calm.trans ⟨rfl, fun q => (hpin q).ge, fun q _ hq => ?_, fun c hc => ?_⟩
  · have hqp : q ≠ p := by
      rintro rfl
      exact hq (hpage ▸ hbuf)
    rw [hpages q hqp]
  · rcases hold c hc with rfl | ⟨hc', he⟩
    · refine .inr ⟨by simp [bcFill, Mem.modBuf, Mem.modPage], ?_, .inr ?_⟩
      · simpa [bcFill, Mem.modBuf, Mem.modPage] using hquiet
      have hppn : ((bcFill m₁ c dev blk p state).bufs c).ppn = p := by
        simp [bcFill, Mem.modBuf, Mem.modPage]
      rw [hppn, hpage]
      exact hbuf
    · exact .inl ⟨hc', by rw [he]; exact .refl _⟩

end

variable {blk : BitVec 64} {cur : Fin nenv} {k k' : Kernel} {kcap ppn : BitVec 32} {r : Ret}

/-- What `sys_bc_insert64` does: `malloc`, and then nothing or an insertion that has passed the
    checks. -/
theorem sysBcInsert64_cases {fuel : Nat} {xn : Option XnName}
    {state : BitVec 8} {ps : Option PpState}
    (heq : sysBcInsert64 fuel k cur xn blk state kcap ppn ps = some (r, k')) :
    ∃ ok m, kmalloc k.mem = (ok, m) ∧ (k' = k.setMem m ∨ k' = (k.setMem m).halt ∨
      ∃ dev c ps' ri m', bcInsertCheckPage (k.setMem m) c ppn ps' = .ok () ∧
        bcLookup64 m dev blk = none ∧ bcInsert64 m dev blk ppn.toNat state = (ri, m') ∧
        ((∃ e, ri = .error e) ∧ k' = k.setMem m' ∨
          (∃ b, ri = .ok b) ∧
            k' = (k.setMem m').modPage ppn.toNat ({ · with state := ps' }))) := by
  unfold sysBcInsert64 at heq
  split at heq
  · rename_i m hm
    cases heq
    exact ⟨false, m, hm, .inr (.inl rfl)⟩
  rename_i m hm
  refine ⟨true, m, hm, ?_⟩
  dsimp only at heq
  split at heq
  · rename_i xn ps
    split at heq
    · cases heq; exact .inl rfl
    split at heq
    · cases heq; exact .inl rfl
    rename_i hcheck
    split at heq
    · cases heq; exact .inl rfl
    obtain ⟨x, -, heq⟩ := bind_eq_some_iff.mp heq
    obtain ⟨a, -, heq⟩ := map_eq_some_iff.mp heq
    split at heq
    · cases heq; exact .inl rfl
    split at heq
    · cases heq; exact .inl rfl
    rename_i hl
    have hnone : bcLookup64 m xn.dev blk = none := by simpa using hl
    right; right
    split at heq
    · rename_i e m' hins
      exact ⟨xn.dev, _, ps, _, m', hcheck, hnone, hins, .inl ⟨⟨e, rfl⟩, (Prod.mk.inj heq).2.symm⟩⟩
    rename_i b m' hins
    exact ⟨xn.dev, _, ps, _, m', hcheck, hnone, hins, .inr ⟨⟨b, rfl⟩, (Prod.mk.inj heq).2.symm⟩⟩
  · cases heq; exact .inl rfl

theorem bcInsertCheckPage_ok {c : Cap} {ps : PpState}
    (h : bcInsertCheckPage k c ppn ps = .ok ()) :
    (k.mem.pages ppn.toNat).status = .user := by
  unfold bcInsertCheckPage at h
  split at h
  · cases h
  dsimp only at h
  split at h
  · cases h
  · rename_i hs
    simpa using hs

/-- **`sys_bc_insert64`** for a page that holds no block. -/
theorem sysBcInsert64_step {fuel : Nat} {xn : Option XnName}
    {state : BitVec 8} {ps : Option PpState}
    (h : CacheInv k.mem) (hbuf : (k.mem.pages ppn.toNat).buf = none)
    (heq : sysBcInsert64 fuel k cur xn blk state kcap ppn ps = some (r, k')) :
    CacheInv k'.mem ∧ Pins k.mem k'.mem [] ∧ k'.mem.panicked = k.mem.panicked ∧
      ((bcValid ||| state.setWidth 32) &&& bcGoingOut = 0#32 → Calm k.mem k'.mem) := by
  obtain ⟨ok, m, hm, hcase⟩ := sysBcInsert64_cases heq
  obtain ⟨hinv, ht⟩ := h.kmalloc hm
  rcases hcase with rfl | rfl | ⟨dev, c, ps', ri, m', hcheck, hnone, hins, hk'⟩
  · exact ⟨hinv, ht.pins, ht.panicked, fun _ => ht.calm⟩
  · exact ⟨hinv, ht.pins, ht.panicked, fun _ => ht.calm⟩
  have hu := bcInsertCheckPage_ok hcheck
  have hbuf' : (m.pages ppn.toNat).buf = none := by
    rcases ht.pages ppn.toNat with he | ⟨-, -, t, -, he⟩
    · rw [he, hbuf]
    · rw [he]
      rfl
  obtain ⟨hinv', hpins, hpan, hcalm⟩ := hinv.insertStep hu hbuf' hnone hins
  have hall : CacheInv m' ∧ Pins k.mem m' [] ∧ m'.panicked = k.mem.panicked ∧
      ((bcValid ||| state.setWidth 32) &&& bcGoingOut = 0#32 → Calm k.mem m') :=
    ⟨hinv', ht.pins.trans hpins, hpan.trans ht.panicked, fun hq => ht.calm.trans (hcalm hq)⟩
  rcases hk' with ⟨-, rfl⟩ | ⟨-, rfl⟩
  · exact hall
  have hstep := hinv'.modPageStep ppn.toNat
    (f := fun pp => { pp with state := ps' }) fun _ => ⟨rfl, rfl, rfl⟩
  exact ⟨hstep.inv, hall.2.1.trans hstep.pins, hstep.panicked.trans hall.2.2.1,
    fun hq => (hall.2.2.2 hq).trans hstep.calm⟩

/-! ### Reading, and the freemap -/

/-- **`sys_bc_read_and_insert`**: the pins it leaves are those of the chain that the driver has. -/
theorem sysBcReadAndInsert_spec {dev : BitVec 32}
    {pagecount resptr : BitVec 32} (h : CacheInv k.mem)
    (heq : sysBcReadAndInsert k cur dev blk pagecount resptr = (r, k')) :
    ∃ m, k' = k.setMem m ∧ CacheInv m ∧ Calm k.mem m ∧
      Pins k.mem m (chainRefs (readAndInsertChain k cur dev blk pagecount resptr)) ∧
      (3 * pagecount.toNat ≤ spare k.mem → m.panicked = k.mem.panicked) := by
  have hsame : ∀ {r'}, (Ret.err r', k) = (r, k') →
      readAndInsertChain k cur dev blk pagecount resptr = [] →
      ∃ m, k' = k.setMem m ∧ CacheInv m ∧ Calm k.mem m ∧
        Pins k.mem m (chainRefs (readAndInsertChain k cur dev blk pagecount resptr)) ∧
        (3 * pagecount.toNat ≤ spare k.mem → m.panicked = k.mem.panicked) := by
    intro r' heq hchain
    rw [hchain]
    exact ⟨k.mem, (Prod.mk.inj heq).2.symm, h, .refl _, fun p => by simp [chainRefs], fun _ => rfl⟩
  unfold sysBcReadAndInsert at heq
  split at heq
  · rename_i h₁
    exact hsame heq (if_pos (h₁.elim .inl fun hx => .inr (.inl hx)))
  rename_i h₁
  split at heq
  · rename_i h₂
    exact hsame heq (if_pos (.inr (.inr (.inl h₂))))
  rename_i h₂
  split at heq
  · rename_i h₃
    exact hsame heq (if_pos (.inr (.inr (.inr h₃))))
  rename_i h₃
  have hgo : ¬(pagecount = 0 ∨ 16 < pagecount ∨ k.ndisks ≤ dev.toNat ∨
      (List.range pagecount.toNat).any fun i =>
        (bcLookup64 k.mem dev (blk + BitVec.ofNat 64 i)).isSome) := by
    rintro (hx | hx | hx | hx)
    · exact h₁ (.inl hx)
    · exact h₁ (.inr hx)
    · exact h₂ hx
    · exact h₃ hx
  split at heq
  · rename_i e hres
    exact hsame heq (by rw [readAndInsertChain, if_neg hgo, hres])
  rename_i res hres
  have hlt := pagecount.isLt
  rw [readAndInsertChain, if_neg hgo, hres]
  refine bcReadExtent64_spec h (by omega) (fun j hj => ?_) heq
  by_contra hl
  refine h₃ (any_eq_true.mpr ⟨j, mem_range.mpr hj, ?_⟩)
  rw [isSome_iff_ne_none]
  exact hl

/-- **`sys_micropart_init`** where the freemap's block is not cached. -/
theorem sysMicropartInit_step {part : BitVec 32}
    (h : CacheInv k.mem)
    (hnone : (k.micropart part.toNat).loaded = true ∨
      bcLookup64 k.mem part micropartMetadataPage = none)
    (heq : sysMicropartInit k cur part kcap = some (r, k')) :
    k'.disks = k.disks ∧ ∃ ps, CacheStep k.mem k'.mem ps := by
  unfold sysMicropartInit at heq
  split at heq
  · cases heq
    exact ⟨rfl, [], .refl h⟩
  split at heq
  · cases heq
    exact ⟨rfl, [], .refl h⟩
  split at heq
  · split at heq
    · cases heq
      exact ⟨rfl, [], .refl h⟩
    split at heq
    · cases heq
    · cases heq
      exact ⟨rfl, [], .refl h⟩
  · rename_i hload
    have hnone' := hnone.resolve_left hload
    obtain ⟨⟨r₁, k₁⟩, hnew, heq⟩ := map_eq_some_iff.mp heq
    unfold micropartNewHeader at hnew
    split at hnew
    · rename_i e m hget
      cases hnew
      cases heq
      obtain ⟨-, hframe, -⟩ := ppageGetReclaimableBuffer_inv h.page hget
      exact ⟨rfl, [], h.getReclaimableBuffer hnone' hget, .getReclaimableBuffer h.page (by decide) hget,
        hframe.pins, hframe.panicked⟩
    rename_i b m hget
    dsimp only at hnew
    split at hnew
    · cases hnew
    cases hnew
    cases heq
    obtain ⟨-, hframe, -⟩ := ppageGetReclaimableBuffer_inv h.page hget
    have hinv := h.getReclaimableBuffer hnone' hget
    exact ⟨rfl, [(m.bufs b).ppn], hinv.pin _,
      (Calm.getReclaimableBuffer h.page (by decide) hget).trans (.pin m _),
      hframe.pins.trans (pins_pin m _), hframe.panicked⟩

/-! ### Unmapping -/

/-- **`ppage_remove`** of a page in use. -/
theorem ppageRemove_step {d : Fin nenv} {va : BitVec 32} (envid : BitVec 32) (h : CacheInv k.mem)
    (huse : ∀ pte, k.pte d va = some pte → isPresent pte = true →
      (k.mem.pages (pgno pte)).status ≠ .free ∧ pgno pte ≠ 0) :
    CacheStep k.mem (ppageRemove k d envid va).mem [] := by
  unfold ppageRemove
  cases hpte : k.pte d va with
  | none => exact .refl h
  | some pte =>
    dsimp only
    split
    · rename_i hp
      split
      · exact .refl h
      rename_i hlt
      obtain ⟨huse, hne⟩ := huse pte hpte hp
      have hstep := h.modPageStep (pgno pte)
        (f := fun pp => pp.dropVpage ⟨envid, pgTrunc va⟩ (isWritable pte)) fun _ => ⟨rfl, rfl, rfl⟩
      rw [Kernel.setPte_mem]
      split
      · refine hstep.trans (hstep.inv.freeStep (Nat.lt_of_not_le hlt) ?_ hne)
        simpa [Mem.modPage, Ppage.dropVpage] using huse
      · exact hstep
    · rw [Kernel.setPte_mem]
      exact .refl h

/-! ## 2. Every run -/

/-- The calls that fill and empty the cache, and what the rest of the kernel does with its pages:
    take free ones, take a cached page for a user, free pages and unmap them. -/
inductive CacheOp where
  | insert (fuel : Nat) (cur : Fin nenv) (xn : Option XnName) (blk : BitVec 64)
      (state : BitVec 8) (kcap ppn : BitVec 32) (ps : Option PpState)
  | readAndInsert (cur : Fin nenv) (dev : BitVec 32) (blk : BitVec 64)
      (pagecount resptr : BitVec 32)
  | micropartInit (cur : Fin nenv) (part kcap : BitVec 32)
  | flush (d : BitVec 32) (blk : BitVec 64) (num : BitVec 32)
  | alloc (type : PpStatus) (userreq : Bool)
  | allocN (type : PpStatus) (n : Nat)
  | reuse (p : Nat)
  | free (p : Nat)
  | unmap (d : Fin nenv) (envid va : BitVec 32)

namespace CacheOp

def exec (k : Kernel) : CacheOp → Option Kernel
  | insert fuel cur xn blk state kcap ppn ps =>
    (sysBcInsert64 fuel k cur xn blk state kcap ppn ps).map (·.2)
  | readAndInsert cur dev blk pagecount resptr =>
    some (sysBcReadAndInsert k cur dev blk pagecount resptr).2
  | micropartInit cur part kcap => (sysMicropartInit k cur part kcap).map (·.2)
  | flush d blk num => some (sysBcFlush64 k d blk num)
  | alloc type userreq => some (k.setMem (ppageAlloc k.mem type userreq).2)
  | allocN type n => some (k.setMem (ppageAllocN k.mem type n).2)
  | reuse p => some (k.setMem (ppageReuseBuffer k.mem p))
  | free p => some (k.setMem (ppageFree k.mem p))
  | unmap d envid va => some (ppageRemove k d envid va)

/-- What the kernel's own functions expect of their callers: a page that is freed or unmapped is
    in use and is not page 0, which boot reserves. -/
def Contract (k : Kernel) : CacheOp → Prop
  | alloc type _ | allocN type _ => type ≠ .free
  | reuse p => p ∈ k.mem.freeBufs
  | free p => p < k.mem.nppage ∧ (k.mem.pages p).status ≠ .free ∧ p ≠ 0
  | unmap d _ va => ∀ pte, k.pte d va = some pte → isPresent pte = true →
    (k.mem.pages (pgno pte)).status ≠ .free ∧ pgno pte ≠ 0
  | _ => True

/-- The call stays clear of the three defects. A block that is read takes at most three empty
    pages: its own, one for headers, and one for `malloc`. -/
def Clear (k : Kernel) : CacheOp → Prop
  | insert _ _ _ _ _ _ ppn _ => (k.mem.pages ppn.toNat).buf = none
  | readAndInsert _ _ _ pagecount _ => 3 * pagecount.toNat ≤ spare k.mem
  | micropartInit _ part _ => (k.micropart part.toNat).loaded = true ∨
    bcLookup64 k.mem part micropartMetadataPage = none
  | _ => True

end CacheOp

/-- **One call** keeps the cache in order, and no assertion fails. -/
theorem CacheInv.exec {op : CacheOp} (h : CacheInv k.mem) (hc : op.Contract k)
    (hok : op.Clear k) (heq : op.exec k = some k') :
    CacheInv k'.mem ∧ k'.mem.panicked = k.mem.panicked := by
  cases op with
  | insert fuel cur xn blk state kcap ppn ps =>
    obtain ⟨⟨r, k₁⟩, hk, rfl⟩ := map_eq_some_iff.mp heq
    obtain ⟨hinv, -, hpan, -⟩ := sysBcInsert64_step h hok hk
    exact ⟨hinv, hpan⟩
  | readAndInsert cur dev blk pagecount resptr =>
    cases heq
    generalize hs : sysBcReadAndInsert k cur dev blk pagecount resptr = s
    obtain ⟨r, k₁⟩ := s
    obtain ⟨m, rfl, hinv, -, -, hpan⟩ := sysBcReadAndInsert_spec h hs
    exact ⟨hinv, hpan hok⟩
  | micropartInit cur part kcap =>
    obtain ⟨⟨r, k₁⟩, hk, rfl⟩ := map_eq_some_iff.mp heq
    obtain ⟨-, ps, hstep⟩ := sysMicropartInit_step h hok hk
    exact ⟨hstep.inv, hstep.panicked⟩
  | flush d blk num =>
    cases heq
    have hstep := sysBcFlush64_step h d blk num
    exact ⟨hstep.inv, hstep.panicked⟩
  | alloc type userreq =>
    cases heq
    obtain ⟨hinv, ht, -⟩ := ppageAlloc_inv h.page hc rfl
    exact ⟨h.takes hinv ht, ht.panicked⟩
  | allocN type n =>
    cases heq
    obtain ⟨hinv, ht⟩ := ppageAllocN_inv h.page hc n
    exact ⟨h.takes hinv ht, ht.panicked⟩
  | reuse p =>
    cases heq
    have hstep := h.reuseStep hc
    exact ⟨hstep.inv, hstep.panicked⟩
  | free p =>
    cases heq
    have hstep := h.freeStep hc.1 hc.2.1 hc.2.2
    exact ⟨hstep.inv, hstep.panicked⟩
  | unmap d envid va =>
    cases heq
    have hstep := ppageRemove_step envid h hc
    exact ⟨hstep.inv, hstep.panicked⟩

/-- Names are unique on all queues together, a page points at a block iff the block is on the
    queue of its name and points back, and no assertion of the memory manager has failed. -/
structure Bijective (m : Mem) : Prop where
  names : ∀ q q' b c, b ∈ m.bcQs q → c ∈ m.bcQs q' → (m.bufs b).dev = (m.bufs c).dev →
    (m.bufs b).blk64 = (m.bufs c).blk64 → b = c
  pages : ∀ p < m.nppage, ∀ b, (m.pages p).buf = some b ↔
    b ∈ m.bcQs (bcHash64 (m.bufs b).dev (m.bufs b).blk64) ∧ (m.bufs b).ppn = p
  asserts : m.panicked = false

/-- **Blocks and pages are in bijection in every state that a run of clear calls reaches.** -/
theorem cache_bijective_of_clear {k₀ k : Kernel} (h₀ : CacheInv k₀.mem)
    (hp₀ : k₀.mem.panicked = false)
    (hrun : Run.Reaches (fun k op k' => CacheOp.exec k op = some k')
      (fun k op => op.Contract k ∧ op.Clear k) k₀ k) : Bijective k.mem := by
  have hinv : CacheInv k.mem ∧ k.mem.panicked = false := by
    refine hrun.invariant (I := fun k => CacheInv k.mem ∧ k.mem.panicked = false) ⟨h₀, hp₀⟩ ?_
    rintro k op k' ⟨h, hp⟩ ⟨hc, hok⟩ heq
    obtain ⟨hinv, hpan⟩ := h.exec hc hok heq
    exact ⟨hinv, hpan.trans hp⟩
  refine ⟨fun q q' b c hb hc hdev hblk => ?_, hinv.1.page.cache.pageBuf, hinv.2⟩
  exact hinv.1.keys b c (hinv.1.page.cache.cached_iff hb) (hinv.1.page.cache.cached_iff hc) hdev hblk

/-- The machine with a pxn for its disk, and enough pages for users to be given some. -/
def roomyKernel : Kernel :=
  (bootKernel (bootMem 300 (by decide) fun p =>
      if p = 0 then .inval else if p = 1 then .kernel else .free)
    rootCap 1 ⟨512, 0x100000, ⟨0, 0⟩⟩).setPxn
      (pxnAlloc .empty 3 3 4 rootCap.1 rootCap.1 ⟨0, 0⟩ blankMem).2

theorem roomyKernel_inv : CacheInv roomyKernel.mem where
  page := bootMem_pageInv 300 (by decide) _
  keys b c hb := nomatch hb
  zero := by decide

/-- The freemap's block is read like any other. -/
def readFreemap : CacheOp := .readAndInsert 0 0 micropartMetadataPage 1 0
def freemapRead : Kernel := (readFreemap.exec roomyKernel).getD roomyKernel

/-- The block is in the cache, on the page that points at it. -/
theorem cache_bijective_freemap_read :
    freemapRead.mem.bcQs (bcHash64 0 micropartMetadataPage) = [135] ∧ Bijective freemapRead.mem := by
  have h₁ : readFreemap.exec roomyKernel = some freemapRead := rfl
  refine ⟨by decide +kernel, cache_bijective_of_clear roomyKernel_inv rfl
    (Run.Reaches.refl.call (i := readFreemap) ⟨trivial, ?_⟩ h₁)⟩
  show 3 * 1 ≤ spare roomyKernel.mem
  decide +kernel

/-- **A second header for a block**: the disk is initialised while its block 20 is cached. -/
theorem cache_two_headers :
    Run.Reaches (fun k op k' => CacheOp.exec k op = some k') (fun k op => op.Contract k) roomyKernel
        (((CacheOp.micropartInit 0 0 0).exec freemapRead).getD roomyKernel) ∧
      ¬Bijective (((CacheOp.micropartInit 0 0 0).exec freemapRead).getD roomyKernel).mem := by
  have h₁ : readFreemap.exec roomyKernel = some freemapRead := rfl
  have hsome : ((CacheOp.micropartInit 0 0 0).exec freemapRead).isSome = true := by decide +kernel
  obtain ⟨k, hk⟩ := isSome_iff_exists.mp hsome
  refine ⟨(Run.Reaches.refl.call (i := readFreemap) trivial h₁).call
    (i := .micropartInit 0 0 0) trivial (by rw [hk]; rfl), fun hbi => ?_⟩
  have hq : (((CacheOp.micropartInit 0 0 0).exec freemapRead).getD roomyKernel).mem.bcQs
      (bcHash64 0 micropartMetadataPage) = [134, 135] := by decide +kernel
  have hne := hbi.names (bcHash64 0 micropartMetadataPage) (bcHash64 0 micropartMetadataPage) 134 135
    (by rw [hq]; decide) (by rw [hq]; decide) (by decide +kernel) (by decide +kernel)
  exact absurd hne (by decide)

/-! ## 3. The flush -/

/-- **A range flush drops the blocks of the range that may go**, unless there are some and the
    range is long and ends with the last 64-bit number. The other blocks stay as they are. -/
theorem sysBcFlush64_exact {k : Kernel} {d : BitVec 32} {b : BitVec 64} {num : BitVec 32}
    (h : CacheInv k.mem) (hd : d.toNat ≠ bcSyncAny) (hb : b.toNat ≠ bcSyncAny)
    (hle : b.toNat + num.toNat ≤ 2 ^ 64) :
    (∀ c, Cached (sysBcFlush64 k d b num).mem c →
      (sysBcFlush64 k d b num).mem.bufs c = k.mem.bufs c) ∧
    ((∀ c, Cached (sysBcFlush64 k d b num).mem c ↔
        Cached k.mem c ∧ ¬(InExtent d b num.toNat (k.mem.bufs c) ∧ Flushable k.mem c)) ↔
      (bcNumQs < num.toNat → b.toNat + num.toNat = 2 ^ 64 →
        ∀ c, Cached k.mem c → InExtent d b num.toNat (k.mem.bufs c) → ¬Flushable k.mem c)) := by
  have hdrops := sysBcFlush64_drops h hd hb hle
  refine ⟨fun c hc => (hdrops.same c hc).1, ?_⟩
  simp only [hdrops.cached]
  refine ⟨fun hall hnum hend c hc hin hf => ?_, fun hno c => ?_⟩
  · have hc' := (hall c).mp ⟨hc, fun hx => hx.1.2 ⟨hnum, hend⟩⟩
    exact hc'.2 ⟨hin, hf⟩
  · refine and_congr_right fun hc => not_congr ⟨fun hx => ⟨hx.1.1, hx.2⟩, fun hx => ⟨⟨hx.1, ?_⟩, hx.2⟩⟩
    exact fun hend => hno hend.1 hend.2 c hc hx.1 hx.2

/-- The block with the last 64-bit number is cached. -/
def lastBlock : Kernel :=
  roomyKernel.setMem (ppageGetReclaimableBuffer roomyKernel.mem 0 (-1) 1 false).2

theorem lastBlock_inv : CacheInv lastBlock.mem := by
  have hread : ppageGetReclaimableBuffer roomyKernel.mem 0 (-1) 1 false = (_, lastBlock.mem) := rfl
  exact roomyKernel_inv.getReclaimableBuffer rfl hread

theorem lastBlock_cached : Cached lastBlock.mem 135 ∧ Flushable lastBlock.mem 135 := by
  unfold Cached Flushable
  decide +kernel

/-- The range of that block alone. -/
theorem sysBcFlush64_last : ¬Cached (sysBcFlush64 lastBlock 0 (-1) 1).mem 135 := by
  intro hc
  have hexact := (@sysBcFlush64_exact lastBlock 0 (-1) 1 lastBlock_inv (by decide) (by decide)
    (by decide)).2.mpr fun hnum => absurd hnum (by decide)
  refine ((hexact 135).mp hc).2 ⟨?_, lastBlock_cached.2⟩
  unfold InExtent
  decide +kernel

/-- It is one of the last 513, which are looked for below block 0. -/
theorem sysBcFlush64_missed : CacheInv lastBlock.mem ∧ Flushable lastBlock.mem 135 ∧
    InExtent 0 (-513) 513 (lastBlock.mem.bufs 135) ∧
    Cached (sysBcFlush64 lastBlock 0 (-513) 513).mem 135 := by
  refine ⟨lastBlock_inv, lastBlock_cached.2, ?_, ?_⟩
  · unfold InExtent
    decide +kernel
  · unfold Cached
    decide +kernel

end Exokernel
