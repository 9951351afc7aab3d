import Exokernel.Proof.Cache

/-!
# Reading an extent into the cache — `bc_read_extent64`

`bc_read_extent64` fills the cache one block at a time. For each block it finds a page and a
header, puts the block into the cache, and only then asks `malloc` for a request; **the new
page is free and unpinned meanwhile, so `malloc` may take it away again**. On an error the
requests made so far are undone and the blocks are dropped, each with an assertion that it is
still there.

`Reading` is what holds after `i` blocks. Its fields are about the state before the call, so
that the clean-up can be seen to restore it, and the last of them is about a machine with
enough empty pages, on which nothing is taken away.
-/
set_option autoImplicit false

namespace Exokernel

open Function Nat

/-! ## 1. What stays in the cache -/

theorem block_ne (block : BitVec 64) {i j : Nat} (hi : i < 2 ^ 64) (hj : j < 2 ^ 64) (hne : i ≠ j) :
    block + BitVec.ofNat 64 i ≠ block + BitVec.ofNat 64 j := by
  intro h
  have h' := congrArg BitVec.toNat (add_left_cancel h)
  rw [BitVec.toNat_ofNat, BitVec.toNat_ofNat, mod_eq_of_lt hi, mod_eq_of_lt hj] at h'
  exact hne h'

/-- Every cached block was cached before, and its page is free if it was. -/
def Remains (m m' : Mem) : Prop :=
  ∀ c, Cached m' c → Cached m c ∧ SameBuf (m.bufs c) (m'.bufs c) ∧
    ((m.pages (m'.bufs c).ppn).status = .free → (m'.pages (m'.bufs c).ppn).status = .free)

section
variable {m m' m'' : Mem} {p : Nat}

theorem Remains.trans (h : Remains m m') (h' : Remains m' m'') : Remains m m'' := by
  intro c hc
  obtain ⟨hc', hs', hf'⟩ := h' c hc
  obtain ⟨hc'', hs, hf⟩ := h c hc'
  refine ⟨hc'', hs.trans hs', fun hfree => hf' ?_⟩
  rw [hs'.ppn] at hfree ⊢
  exact hf hfree

theorem Frame.free_of_buf (h : Frame m m') (hbuf : (m'.pages p).buf ≠ none)
    (hs : (m.pages p).status = .free) : (m'.pages p).status = .free := by
  rcases h.pages p with he | ⟨-, -, -, -, hnone | hfree⟩
  · rw [he, hs]
  · exact absurd hnone hbuf
  · exact hfree

theorem Frame.remains (h : Frame m m') (h' : CacheInv m')
    (hold : ∀ c, Cached m' c → Cached m c ∧ m'.bufs c = m.bufs c) : Remains m m' := by
  intro c hc
  obtain ⟨hc', he⟩ := hold c hc
  obtain ⟨-, hbuf⟩ := h'.bufOf hc
  exact ⟨hc', by rw [he]; exact .refl _, h.free_of_buf (by simp [hbuf])⟩

theorem Takes.remains (h : Takes m m') (h' : CacheInv m') : Remains m m' :=
  h.frame.remains h' h.cached

theorem Remains.modPage (m : Mem) (p : Nat) {f : Ppage → Ppage}
    (hs : ∀ pp, (f pp).status = pp.status) : Remains m (m.modPage p f) := by
  intro c hc
  refine ⟨hc, .refl _, fun hfree => ?_⟩
  simp only [Mem.modPage] at hfree ⊢
  by_cases hp : (m.bufs c).ppn = p
  · rw [hp] at hfree ⊢
    rw [update_self, hs]
    exact hfree
  · rw [update_of_ne hp]
    exact hfree

theorem Remains.pinRes (m : Mem) (res : Option Nat) : Remains m (pinRes m res) := by
  cases res with
  | none => exact fun c hc => ⟨hc, .refl _, id⟩
  | some p => exact Remains.modPage m p (f := fun pp => { pp with pinned := pp.pinned + 1 }) fun _ => rfl

end

/-! ### A page put back -/

section
variable {m m' : Mem} {p b : Nat}

theorem Calm.assert (m : Mem) (c : Bool) : Calm m (m.assert c) := by
  obtain ⟨_, he⟩ := m.assert_eq c
  rw [he]
  exact ⟨rfl, fun _ => le_rfl, fun _ _ _ => rfl, fun c hc => .inl ⟨hc, .refl _⟩⟩

theorem CacheInv.freePage (h : CacheInv m) (hlt : p < m.nppage) (hs : (m.pages p).status ≠ .free)
    (hp : p ≠ 0) : CacheInv (ppageFree m p) where
  page := h.page.freePage hlt hs
  keys := h.keys.ofSub fun c hc => ⟨by simpa [Cached] using hc, by simp, by simp⟩
  zero := by
    rw [ppageFree_pages, if_neg fun hx => hp hx.1.symm]
    exact h.zero

theorem Calm.freePage (m : Mem) (p : Nat) : Calm m (ppageFree m p) where
  nppage := by simp
  pinned q := (ppageFree_pinned m p q).ge
  held q _ _ := by
    rw [ppageFree_pages]
    split
    · rename_i hq
      rw [hq.1]
    · rfl
  cached c hc := by
    simp only [Cached, ppageFree_bufs, ppageFree_bcQs] at hc ⊢
    exact .inl ⟨hc, .refl _⟩

theorem Remains.freePage (m : Mem) (p : Nat) : Remains m (ppageFree m p) := by
  intro c hc
  simp only [Cached, ppageFree_bufs, ppageFree_bcQs] at hc ⊢
  refine ⟨hc, .refl _, fun hfree => ?_⟩
  rw [ppageFree_pages]
  split
  · rfl
  · exact hfree

/-- What the clean-up of `bc_read_extent64` does to a page. It still holds the buffer, or somebody
    has taken it; then an assertion fails. -/
theorem CacheInv.putBack (h : CacheInv m) (hlt : p < m.nppage) (hpin : (m.pages p).pinned = 0)
    (hcase : p ∈ m.freeBufs ∨ (m.pages p).status ≠ .free ∧ (m.pages p).buf = none ∧ p ≠ 0) :
    CacheInv (ppageFreeBufs2FreeList m p) ∧ Calm m (ppageFreeBufs2FreeList m p) ∧
    Pins m (ppageFreeBufs2FreeList m p) [] ∧ Remains m (ppageFreeBufs2FreeList m p) ∧
    (∀ c, Cached (ppageFreeBufs2FreeList m p) c → (m.bufs c).ppn ≠ p) ∧
    (p ∈ m.freeBufs → (ppageFreeBufs2FreeList m p).panicked = m.panicked) := by
  rcases hcase with hmem | ⟨hs, hnone, hp⟩
  · obtain ⟨b, hb, -⟩ := h.page.bufOf hmem
    obtain ⟨-, -, hpan, -, hcached⟩ := ppageFreeBufs2FreeList_spec h.page hmem hb
    have hframe := Frame.freeBufs2FreeList h.page hmem hpin
    refine ⟨h.drop hmem, .drop h.page hmem hpin, hframe.pins,
      hframe.remains (h.drop hmem) fun c hc => ((hcached c).mp hc).2, fun c hc hppn => ?_,
      fun _ => hpan⟩
    obtain ⟨hne, hc', -⟩ := (hcached c).mp hc
    obtain ⟨-, hbuf⟩ := h.bufOf hc'
    rw [hppn, hb] at hbuf
    exact hne (Option.some.inj hbuf).symm
  · have heq : ppageFreeBufs2FreeList m p = ppageFree (m.assert false) p := by
      simp [ppageFreeBufs2FreeList, ppageReclaimBuffer, hnone, Mem.assert]
    rw [heq]
    refine ⟨(h.assert false).freePage hlt hs hp,
      (Calm.assert m false).trans (.freePage (m.assert false) p),
      fun q => by rw [ppageFree_pinned]; simp [Mem.assert], Remains.freePage (m.assert false) p, fun c hc hppn => ?_, fun hmem => ?_⟩
    · simp only [Cached, ppageFree_bufs, ppageFree_bcQs] at hc
      obtain ⟨-, hbuf⟩ := h.bufOf (b := c) hc
      rw [hppn, hnone] at hbuf
      cases hbuf
    · exact absurd ((h.page.free.memBufs p).mp hmem).2.1 hs

end

/-- Block `j` of the extent is what header `b` is for. -/
def ForBlock (m : Mem) (dev : BitVec 32) (block : BitVec 64) (j b : Nat) : Prop :=
  Cached m b ∧ (m.bufs b).dev = dev ∧ (m.bufs b).blk64 = block + BitVec.ofNat 64 j

/-- The state of `bc_read_extent64` after `i` of `num` blocks. The blocks read so far are on free
    pages that were nobody's at the start, those to come are not cached. With enough empty pages
    at the start, all the blocks read so far are still there. -/
structure Reading (m₀ : Mem) (dev : BitVec 32) (block : BitVec 64) (num i : Nat)
    (chain : List DiskBuf) (m : Mem) : Prop where
  inv : CacheInv m
  calm : Calm m₀ m
  pins : Pins m₀ m (chainRefs chain)
  todo : ∀ j, i ≤ j → j < num → bcLookup64 m dev (block + BitVec.ofNat 64 j) = none
  done : ∀ j < i, ∀ b, ForBlock m dev block j b →
    (m.pages (m.bufs b).ppn).status = .free ∧ (m₀.pages (m.bufs b).ppn).pinned = 0
  there : 3 * num ≤ spare m₀ → m.panicked = m₀.panicked ∧
    ∀ j < i, ∃ b, ForBlock m dev block j b ∧ (m.pages (m.bufs b).ppn).pinned ≠ 0

namespace Reading

variable {m₀ m m' : Mem} {dev : BitVec 32} {block : BitVec 64} {num i : Nat}
  {chain : List DiskBuf}

theorem start (h : CacheInv m)
    (hnone : ∀ j < num, bcLookup64 m dev (block + BitVec.ofNat 64 j) = none) :
    Reading m dev block num 0 [] m where
  inv := h
  calm := .refl m
  pins p := by simp [chainRefs]
  todo j _ hj := hnone j hj
  done j hj := absurd hj (Nat.not_lt_zero j)
  there _ := ⟨rfl, fun j hj => absurd hj (Nat.not_lt_zero j)⟩

theorem shrink (h : Reading m₀ dev block num i chain m) (hinv : CacheInv m') (hcalm : Calm m m')
    (hpins : Pins m m' []) (hrem : Remains m m')
    (hpan : 3 * num ≤ spare m₀ → m'.panicked = m.panicked) :
    Reading m₀ dev block num i chain m' where
  inv := hinv
  calm := h.calm.trans hcalm
  pins := by simpa using h.pins.trans hpins
  todo j hi hj := by
    rw [bcLookup64_eq_none hinv.page.cache]
    intro c hc hdev hblk
    obtain ⟨hc', hs, -⟩ := hrem c hc
    exact (bcLookup64_eq_none h.inv.page.cache).mp (h.todo j hi hj) c hc' (hs.dev ▸ hdev)
      (hs.blk64 ▸ hblk)
  done j hj b hb := by
    obtain ⟨hc, hs, hfree⟩ := hrem b hb.1
    obtain ⟨hf, hpin⟩ := h.done j hj b ⟨hc, hs.dev ▸ hb.2.1, hs.blk64 ▸ hb.2.2⟩
    rw [hs.ppn] at hfree ⊢
    exact ⟨hfree hf, hpin⟩
  there hspare := by
    obtain ⟨hp, hall⟩ := h.there hspare
    refine ⟨(hpan hspare).trans hp, fun j hj => ?_⟩
    obtain ⟨b, hb, hpin⟩ := hall j hj
    obtain ⟨hc, hs⟩ := hcalm.stays h.inv hinv hb.1 hpin
    refine ⟨b, ⟨hc, hs.dev.trans hb.2.1, hs.blk64.trans hb.2.2⟩, ?_⟩
    rw [hs.ppn]
    have := hcalm.pinned (m.bufs b).ppn
    omega

/-- **A block is added.** Its header `b` is new in `m₁`, and after the steps to `m'` its page is
    pinned along with the page of a result word. -/
theorem grow (h : Reading m₀ dev block num i chain m) (hi : i < num) (hnum : num < 2 ^ 64)
    {m₁ : Mem} {b : Nat} {d : DiskBuf} (hinv : CacheInv m') (hcalm : Calm m m')
    (hpins : Pins m m' d.refs) (hrem : Remains m₁ m')
    (hkey : (m₁.bufs b).dev = dev ∧ (m₁.bufs b).blk64 = block + BitVec.ofNat 64 i)
    (hfree : (m₁.pages (m₁.bufs b).ppn).status = .free)
    (hpin : (m.pages (m₁.bufs b).ppn).pinned = 0)
    (hold : ∀ c, Cached m₁ c → c ≠ b → Cached m c ∧ m₁.bufs c = m.bufs c ∧
      ((m.pages (m.bufs c).ppn).status = .free → (m₁.pages (m.bufs c).ppn).status = .free))
    (hthere : 3 * num ≤ spare m₀ → m'.panicked = m.panicked ∧ Cached m' b ∧
      (m'.pages (m₁.bufs b).ppn).pinned ≠ 0) :
    Reading m₀ dev block num (i + 1) (chain ++ [d]) m' where
  inv := hinv
  calm := h.calm.trans hcalm
  pins := by
    rw [chainRefs_append]
    simpa [chainRefs] using h.pins.trans hpins
  todo j hij hj := by
    rw [bcLookup64_eq_none hinv.page.cache]
    intro c hc hdev hblk
    obtain ⟨hc₁, hs, -⟩ := hrem c hc
    by_cases hcb : c = b
    · subst hcb
      have hne := block_ne block (i := i) (j := j) (by omega) (by omega) (by omega)
      exact hne (hkey.2.symm.trans (hs.blk64 ▸ hblk))
    obtain ⟨hc', he, -⟩ := hold c hc₁ hcb
    rw [hs.dev, he] at hdev
    rw [hs.blk64, he] at hblk
    exact (bcLookup64_eq_none h.inv.page.cache).mp (h.todo j (by omega) hj) c hc' hdev hblk
  done j hj c hc := by
    obtain ⟨hc₁, hs, hfree'⟩ := hrem c hc.1
    rw [hs.ppn] at hfree' ⊢
    by_cases hcb : c = b
    · subst hcb
      refine ⟨hfree' hfree, ?_⟩
      have := h.calm.pinned (m₁.bufs c).ppn
      omega
    obtain ⟨hc', he, hf⟩ := hold c hc₁ hcb
    have hdev : (m.bufs c).dev = dev := by rw [← he, ← hs.dev, hc.2.1]
    have hblk : (m.bufs c).blk64 = block + BitVec.ofNat 64 j := by
      rw [← he, ← hs.blk64, hc.2.2]
    have hji : j < i := by
      refine lt_of_le_of_ne (Nat.lt_succ_iff.mp hj) ?_
      rintro rfl
      exact (bcLookup64_eq_none h.inv.page.cache).mp (h.todo j le_rfl hi) c hc' hdev hblk
    obtain ⟨hfree₀, hpin₀⟩ := h.done j hji c ⟨hc', hdev, hblk⟩
    rw [he] at hfree' ⊢
    exact ⟨hfree' (hf hfree₀), hpin₀⟩
  there hspare := by
    obtain ⟨hp, hall⟩ := h.there hspare
    obtain ⟨hp', hb, hbpin⟩ := hthere hspare
    refine ⟨hp'.trans hp, fun j hj => ?_⟩
    rcases Nat.lt_succ_iff_lt_or_eq.mp hj with hj | rfl
    · obtain ⟨c, hc, hcpin⟩ := hall j hj
      obtain ⟨hc', hs⟩ := hcalm.stays h.inv hinv hc.1 hcpin
      refine ⟨c, ⟨hc', hs.dev.trans hc.2.1, hs.blk64.trans hc.2.2⟩, ?_⟩
      rw [hs.ppn]
      have := hcalm.pinned (m.bufs c).ppn
      omega
    · obtain ⟨-, hs, -⟩ := hrem b hb
      refine ⟨b, ⟨hb, hs.dev.trans hkey.1, hs.blk64.trans hkey.2⟩, ?_⟩
      rw [hs.ppn]
      exact hbpin

end Reading

variable {b num p : Nat} {block : BitVec 64} {dev : BitVec 32} {m m₀ : Mem}

/-- The page of a new block after `malloc`: as it was, or taken. -/
theorem Takes.onFreeBufs {m' : Mem} (ht : Takes m m') (h' : CacheInv m')
    (hlt : p < m.nppage) (hfree : (m.pages p).status = .free) (hbuf : (m.pages p).buf ≠ none)
    (hp : p ≠ 0) :
    p ∈ m'.freeBufs ∨ (m'.pages p).status ≠ .free ∧ (m'.pages p).buf = none ∧ p ≠ 0 := by
  rcases ht.pages p with he | ⟨-, -, t, htf, he⟩
  · left
    rw [h'.page.free.memBufs, ht.nppage, he]
    exact ⟨hlt, hfree, hbuf⟩
  right
  rw [he]
  exact ⟨htf, rfl, hp⟩

/-! ### The header of a new block is clean -/

section
variable {m m' : Mem} {b : Nat}

theorem ppageReclaim_clean (p : Nat) (t : PpStatus) (hb : (m.bufs b).dirty = false) :
    ((ppageReclaim m p t).bufs b).dirty = false := by
  unfold ppageReclaim
  split
  · cases hc : (m.pages p).buf with
    | none => simpa only [ppageReclaimBuffer, hc] using hb
    | some c =>
      obtain ⟨n, -, he⟩ := ppageReclaimBuffer_remove t hc
      obtain ⟨pan, hr⟩ := bcRemove_shape _ c
      rw [he, hr]
      by_cases hbc : b = c
      · simp [ppageInitpp, Mem.modPage, hbc]
      · simpa [ppageInitpp, Mem.modPage, hbc] using hb
  · exact hb

theorem kmalloc_clean {ok : Bool} (heq : kmalloc m = (ok, m')) (hb : (m.bufs b).dirty = false) :
    (m'.bufs b).dirty = false := by
  obtain ⟨f, rfl | ⟨p, -, rfl⟩⟩ := kmalloc_cases heq
  · exact hb
  · exact ppageReclaim_clean p _ hb

end

/-! ### One block -/

theorem bcComingIn_quiet : (bcValid ||| bcComingInState.setWidth 32) &&& bcGoingOut = 0#32 := by
  decide

/-- `bc_read_extent64` has a page `p` and a header `b` for block `blk`, with nobody's rights on
    it yet. -/
structure NewBlock (m m' : Mem) (dev : BitVec 32) (blk : BitVec 64) (b p : Nat) : Prop where
  inv : CacheInv m'
  calm : Calm m m'
  pins : Pins m m' []
  panicked : m'.panicked = m.panicked
  room : spare m ≤ spare m' + 2
  cached : Cached m' b
  key : (m'.bufs b).dev = dev ∧ (m'.bufs b).blk64 = blk
  clean : (m'.bufs b).dirty = false
  ppn : (m'.bufs b).ppn = p
  free : (m'.pages p).status = .free
  unpinned : (m.pages p).pinned = 0
  notZero : p ≠ 0
  old : ∀ c, Cached m' c → c ≠ b → Cached m c ∧ m'.bufs c = m.bufs c ∧
    ((m.pages (m.bufs c).ppn).status = .free → (m'.pages (m.bufs c).ppn).status = .free)

namespace NewBlock

variable {m m₂ m₃ : Mem} {dev : BitVec 32} {blk : BitVec 64} {b p : Nat}

theorem buf (h : NewBlock m m₂ dev blk b p) : p < m₂.nppage ∧ (m₂.pages p).buf = some b := by
  have hb := h.inv.bufOf h.cached
  rwa [h.ppn] at hb

theorem getReclaimableBuffer {m₁ : Mem} {userreq : Bool} (h : CacheInv m)
    (hnone : bcLookup64 m dev blk = none)
    (heq : ppageGetReclaimableBuffer m dev blk bcComingInState userreq = (.ok b, m₁)) :
    NewBlock m m₁ dev blk b (m₁.bufs b).ppn := by
  obtain ⟨-, hframe, hold, hnew⟩ := ppageGetReclaimableBuffer_inv h.page heq
  obtain ⟨hb, hdev, hblk, hfree₀, hfree₁, hpin₀, -, -, -, hclean⟩ := hnew b rfl
  have hinv := h.getReclaimableBuffer hnone heq
  refine ⟨hinv, .getReclaimableBuffer h.page bcComingIn_quiet heq, hframe.pins, hframe.panicked,
    spare_getReclaimableBuffer h.page heq, hb, ⟨hdev, hblk⟩, hclean, rfl,
    hfree₁, hpin₀, fun h0 => h.zero (h0 ▸ hfree₀), fun c hc hcb => ?_⟩
  obtain ⟨hc', he⟩ := (hold c hc).resolve_left fun hr => hcb (Except.ok.inj hr)
  obtain ⟨-, hcbuf⟩ := hinv.bufOf hc
  rw [he] at hcbuf
  exact ⟨hc', he, hframe.free_of_buf (by simp [hcbuf])⟩

theorem modPage (h : NewBlock m m₂ dev blk b p) {f : Ppage → Ppage}
    (hf : ∀ pp, (f pp).status = pp.status ∧ (f pp).buf = pp.buf ∧ (f pp).pinned = pp.pinned) :
    NewBlock m (m₂.modPage p f) dev blk b p := by
  have hpage : ∀ q, ((m₂.modPage p f).pages q).status = (m₂.pages q).status ∧
      ((m₂.modPage p f).pages q).pinned = (m₂.pages q).pinned := by
    intro q
    by_cases hq : q = p
    · subst hq
      simp [Mem.modPage, hf]
    · simp [Mem.modPage, hq]
  have hcalm : Calm m₂ (m₂.modPage p f) :=
    .modPage m₂ p (fun pp => (hf pp).2.1) fun pp => (hf pp).2.2.ge
  refine ⟨h.inv.modPage p (fun pp => (hf pp).1) fun pp => (hf pp).2.1, h.calm.trans hcalm,
    fun q => by rw [(hpage q).2, h.pins q], h.panicked, ?_, h.cached, h.key, h.clean, h.ppn,
    (hpage p).1.trans h.free, h.unpinned, h.notZero, fun c hc hcb => ?_⟩
  · have hs : spare (m₂.modPage p f) = spare m₂ :=
      spare_congr rfl fun q _ => (hpage q).2
    rw [hs]
    exact h.room
  · obtain ⟨hc', he, hfree⟩ := h.old c hc hcb
    exact ⟨hc', he, fun hx => (hpage _).1.trans (hfree hx)⟩

theorem taken (h : NewBlock m m₂ dev blk b p) (h₃ : CacheInv m₃) (ht : Takes m₂ m₃) :
    p ∈ m₃.freeBufs ∨ (m₃.pages p).status ≠ .free ∧ (m₃.pages p).buf = none ∧ p ≠ 0 :=
  ht.onFreeBufs h₃ h.buf.1 h.free (by rw [h.buf.2]; exact nofun) h.notZero

/-- With an empty page left, `malloc` does not take it. -/
theorem kept (h : NewBlock m m₂ dev blk b p) {ok : Bool} (hm : kmalloc m₂ = (ok, m₃))
    (hspare : 0 < spare m₂) : p ∈ m₃.freeBufs ∧ Cached m₃ b := by
  obtain ⟨m₃', hm', hbufs, hqs, hsame⟩ := kmalloc_spare h.inv.page hspare
  obtain rfl : m₃' = m₃ := (Prod.mk.inj (hm'.symm.trans hm)).2
  obtain ⟨hinv₃, ht⟩ := h.inv.kmalloc hm
  refine ⟨(h.taken hinv₃ ht).resolve_right fun hx => hx.1 ?_, ?_⟩
  · rw [hsame p (by rw [h.buf.2]; exact nofun), h.free]
  · rw [Cached, hbufs, hqs]
    exact h.cached

end NewBlock

namespace Reading

variable {m₀ m m₂ m₃ : Mem} {dev : BitVec 32} {block : BitVec 64} {num i b p : Nat}
  {chain : List DiskBuf}

theorem undo (h : Reading m₀ dev block num i chain m)
    (hf : NewBlock m m₂ dev (block + BitVec.ofNat 64 i) b p) (hinv₃ : CacheInv m₃) (ht : Takes m₂ m₃)
    (hkept : 3 * num ≤ spare m₀ → p ∈ m₃.freeBufs) :
    Reading m₀ dev block num i chain (ppageFreeBufs2FreeList m₃ p) := by
  have hpin : (m₃.pages p).pinned = 0 := by
    have hpins := hf.pins p
    rw [List.count_nil, hf.unpinned] at hpins
    rw [ht.pinned_eq, hpins]
  obtain ⟨hinv₄, hcalm₄, hpins₄, hrem₄, hne, hpan₄⟩ :=
    hinv₃.putBack (ht.nppage ▸ hf.buf.1) hpin (hf.taken hinv₃ ht)
  refine h.shrink hinv₄ ((hf.calm.trans ht.calm).trans hcalm₄) ?_ ?_ ?_
  · simpa using (hf.pins.trans ht.pins).trans hpins₄
  · -- what is left was there before the block was added
    intro c hc
    obtain ⟨hc₂, hs, hfree⟩ := ((ht.remains hinv₃).trans hrem₄) c hc
    have hcb : c ≠ b := by
      rintro rfl
      obtain ⟨-, hs₃, -⟩ := hrem₄ c hc
      exact hne c hc ((hs₃.ppn.symm.trans hs.ppn).trans hf.ppn)
    obtain ⟨hc₀, he, hfree₀⟩ := hf.old c hc₂ hcb
    rw [he] at hs
    rw [hs.ppn] at hfree ⊢
    exact ⟨hc₀, hs, fun hx => hfree (hfree₀ hx)⟩
  · intro hsp
    rw [hpan₄ (hkept hsp), ht.panicked, hf.panicked]

/-- **A request was made**: the page is pinned, with the page of the result word if this is the
    last block. -/
theorem commit (h : Reading m₀ dev block num i chain m) (hi : i < num) (hnum : num < 2 ^ 64)
    (hf : NewBlock m m₂ dev (block + BitVec.ofNat 64 i) b p) (hm : kmalloc m₂ = (true, m₃))
    (hspare : 3 * num ≤ spare m₀ → 0 < spare m₂) (blkno : BitVec 64) (res : Option Nat) :
    Reading m₀ dev block num (i + 1) (chain ++ [⟨blkno, p, res⟩])
      (pinRes (ppagePin m₃ p) res) := by
  obtain ⟨hinv₃, ht⟩ := hf.inv.kmalloc hm
  have hpins : Pins m (pinRes (ppagePin m₃ p) res) (p :: res.toList) := by
    have hall := ((hf.pins.trans ht.pins).trans (pins_pin m₃ p)).trans (pins_pinRes _ res)
    simpa using hall
  have hrem := ((ht.remains hinv₃).trans (Remains.pinRes m₃ (some p))).trans (Remains.pinRes _ res)
  have hcalm := ((hf.calm.trans ht.calm).trans (.pin m₃ p)).trans (.pinRes _ res)
  refine h.grow (d := ⟨blkno, p, res⟩) hi hnum ((hinv₃.pin p).pinRes res) hcalm hpins hrem hf.key
    (by rw [hf.ppn]; exact hf.free) (by rw [hf.ppn]; exact hf.unpinned) hf.old fun hsp => ?_
  have hb₃ := (hf.kept hm (hspare hsp)).2
  have hpin := hpins p
  rw [List.count_cons_self] at hpin
  refine ⟨?_, ?_, by rw [hf.ppn]; omega⟩
  · rw [← hf.panicked, ← ht.panicked]
    cases res with
    | none => rfl
    | some q => rfl
  · cases res with
    | none => exact hb₃
    | some q => exact hb₃

end Reading

/-- The next block still finds empty pages: this one took at most three. -/
theorem NewBlock.spare_pin {m₂ m₃ : Mem} {blk : BitVec 64} {n : Nat}
    (hf : NewBlock m m₂ dev blk b p) (hm : kmalloc m₂ = (true, m₃)) (hn : 3 * (n + 1) ≤ spare m) :
    3 * n ≤ spare (ppagePin m₃ p) := by
  have h₂ := hf.room
  have h₃ := spare_kmalloc hf.inv.page hm
  obtain ⟨hp, -⟩ := hf.kept hm (by omega)
  obtain ⟨hinv₃, -⟩ := hf.inv.kmalloc hm
  have heq : spare (ppagePin m₃ p) = spare m₃ := by
    refine spare_congr rfl fun q hq => ?_
    have hne : q ≠ p := by
      rintro rfl
      exact ((hinv₃.page.free.memBufs q).mp hp).2.2 ((hinv₃.page.free.memList q).mp hq).2.2
    simp [ppagePin, Mem.modPage, hne]
  rw [heq]
  omega

theorem pinRes_clean {res : Option Nat} (h : (m.bufs b).dirty = false) :
    bcSetClean (pinRes (ppagePin m p) res) b = pinRes (ppagePin m p) res := by
  have hb : ((pinRes (ppagePin m p) res).bufs b).dirty = false := by
    cases res with
    | none => exact h
    | some q => exact h
  unfold bcSetClean bcIsDirty
  rw [if_neg (by simp [hb])]

/-- **The loop of `bc_read_extent64`.** -/
theorem Reading.loop
    (hnum : num < 2 ^ 64) (res : Option Nat) (userreq : Bool) (left : Nat) :
    ∀ {i : Nat} {chain : List DiskBuf} {k : Kernel}, i + left = num →
      Reading m₀ dev block num i chain k.mem → (3 * num ≤ spare m₀ → 3 * left ≤ spare k.mem) →
      ∃ m, (bcReadLoop dev block res userreq left i chain k).k = k.setMem m ∧
        (bcReadLoop dev block res userreq left i chain k).done ≤ num ∧
        Reading m₀ dev block num (bcReadLoop dev block res userreq left i chain k).done
          (bcReadLoop dev block res userreq left i chain k).chain m := by
  induction left with
  | zero => exact fun hi h _ => ⟨_, rfl, hi.le, h⟩
  | succ left ih =>
    intro i chain k hleft h hspare
    have hi : i < num := by omega
    have hnone := h.todo i le_rfl hi
    unfold bcReadLoop
    dsimp only
    split
    · -- no page, or no header
      rename_i e m₁ heq
      obtain ⟨-, hframe, hold, -⟩ := ppageGetReclaimableBuffer_inv h.inv.page heq
      have hinv₁ := h.inv.getReclaimableBuffer hnone heq
      have hold' : ∀ c, Cached m₁ c → Cached k.mem c ∧ m₁.bufs c = k.mem.bufs c := fun c hc =>
        (hold c hc).resolve_left fun hr => nomatch hr
      exact ⟨m₁, rfl, hi.le, h.shrink hinv₁ (.getReclaimableBuffer h.inv.page bcComingIn_quiet heq)
        hframe.pins (hframe.remains hinv₁ hold') fun _ => hframe.panicked⟩
    · rename_i b m₁ heq
      have hf := (NewBlock.getReclaimableBuffer h.inv hnone heq).modPage (f := fun pp =>
        { pp with
          acl := aclInit pp.acl pp.acl.length
          state := ⟨ppAccessAll, ppAccessAll⟩ }) fun _ => ⟨rfl, rfl, rfl⟩
      generalize hp : (m₁.bufs b).ppn = p at hf ⊢
      have hk : ∀ f, (k.setMem m₁).modPage p f = k.setMem (m₁.modPage p f) := fun _ => rfl
      rw [hk]
      generalize m₁.modPage p _ = m₂ at hf ⊢
      have hpos : 3 * num ≤ spare m₀ → 0 < spare m₂ := by
        intro hsp
        have h₀ := hspare hsp
        have h₂ := hf.room
        omega
      split
      · rename_i e k₃ hprep
        rcases diskPrepareBcRequest_cases hprep with ⟨-, rfl | ⟨ok, m₃, hm, rfl⟩⟩ | ⟨m₃, -, hr, -⟩
        · refine ⟨_, rfl, hi.le, h.undo hf hf.inv (.refl m₂) fun _ => ?_⟩
          exact (hf.taken hf.inv (.refl m₂)).resolve_right fun hx => hx.1 hf.free
        · obtain ⟨hinv₃, ht⟩ := hf.inv.kmalloc hm
          exact ⟨_, rfl, hi.le, h.undo hf hinv₃ ht fun hsp => (hf.kept hm (hpos hsp)).1⟩
        · cases hr
      · rename_i chain' k₃ hprep
        rcases diskPrepareBcRequest_cases hprep with ⟨⟨e, hr⟩, -⟩ | ⟨m₃, hm, hr, rfl⟩
        · cases hr
        cases hr
        have hclean := kmalloc_clean hm hf.clean
        have hread := fun blkno => h.commit hi hnum hf hm hpos blkno (if left = 0 then res else none)
        have hspare' : 3 * num ≤ spare m₀ →
            3 * left ≤ spare (pinRes (ppagePin m₃ p) (if left = 0 then res else none)) := by
          intro hsp
          cases left with
          | zero => exact zero_le _
          | succ n => exact hf.spare_pin hm (hspare hsp)
        dsimp only [Kernel.setMem] at hread ⊢
        rw [pinRes_clean hclean]
        exact ih (by omega) (hread _) hspare'

/-! ### The clean-up -/

/-- The clean-up of `bc_read_extent64` once the chain is unpinned. The blocks from `j` on are
    still to be dropped. -/
theorem bcReadCleanup_spec (dev : BitVec 32) (block : BitVec 64) {done : Nat}
    (hdone : done < 2 ^ 64) (left : Nat) : ∀ {j : Nat} {m : Mem}, j + left = done → CacheInv m →
      Calm m₀ m → Pins m₀ m [] →
      (∀ i, j ≤ i → i < done → ∀ b, ForBlock m dev block i b →
        (m.pages (m.bufs b).ppn).status = .free ∧ (m₀.pages (m.bufs b).ppn).pinned = 0) →
      CacheInv (bcReadCleanup dev block left j m) ∧ Calm m₀ (bcReadCleanup dev block left j m) ∧
      Pins m₀ (bcReadCleanup dev block left j m) [] ∧
      ((∀ i, j ≤ i → i < done → ∃ b, ForBlock m dev block i b) →
        (bcReadCleanup dev block left j m).panicked = m.panicked) := by
  induction left with
  | zero => exact fun _ hinv hcalm hpins _ => ⟨hinv, hcalm, hpins, fun _ => rfl⟩
  | succ left ih =>
    intro j m hj hinv hcalm hpins hfree
    unfold bcReadCleanup
    cases hl : bcLookup64 m dev (block + BitVec.ofNat 64 j) with
    | none =>
      refine ⟨hinv.assert false, hcalm.trans (.assert m false), hpins, fun hall => ?_⟩
      obtain ⟨b, hb, hdev, hblk⟩ := hall j le_rfl (by omega)
      exact absurd hblk ((bcLookup64_eq_none hinv.page.cache).mp hl b hb hdev)
    | some b =>
      have hb : ForBlock m dev block j b := bcLookup64_some hinv.page.cache hl
      obtain ⟨hf, hpin₀⟩ := hfree j le_rfl (by omega) b hb
      obtain ⟨hlt, hbuf⟩ := hinv.bufOf hb.1
      have hne : (m.bufs b).ppn ≠ 0 := fun h0 => hinv.zero (h0 ▸ hf)
      have hpin : (m.pages (m.bufs b).ppn).pinned = 0 := by
        rw [hpins, hpin₀, List.count_nil]
      have hmem : (m.bufs b).ppn ∈ m.freeBufs :=
        (hinv.page.free.memBufs _).mpr ⟨hlt, hf, by rw [hbuf]; exact nofun⟩
      obtain ⟨hinv', hcalm', hpins', hrem, -, hpan⟩ := hinv.putBack hlt hpin (.inl hmem)
      dsimp only
      rw [Mem.assert, if_pos (by simpa using hne)]
      obtain ⟨hinv'', hcalm'', hpins'', hpan'⟩ := ih (j := j + 1)
        (m := ppageFreeBufs2FreeList m (m.bufs b).ppn) (by omega) hinv' (hcalm.trans hcalm')
        (by simpa using hpins.trans hpins') fun i hi hid c hc => by
          obtain ⟨hcm, hs, hfc⟩ := hrem c hc.1
          obtain ⟨hf', hp'⟩ := hfree i (by omega) hid c ⟨hcm, hs.dev ▸ hc.2.1, hs.blk64 ▸ hc.2.2⟩
          rw [hs.ppn] at hfc ⊢
          exact ⟨hfc hf', hp'⟩
      refine ⟨hinv'', hcalm'', hpins'', fun hall => ?_⟩
      refine (hpan' fun i hi hid => ?_).trans (hpan hmem)
      obtain ⟨c, hc, hdev, hblk⟩ := hall i (by omega) hid
      have hcb : c ≠ b := by
        rintro rfl
        exact block_ne _ (i := j) (j := i) (by omega) (by omega) (by omega) (hb.2.2.symm.trans hblk)
      obtain ⟨-, -, -, hsame, hcached⟩ := ppageFreeBufs2FreeList_spec hinv.page hmem hbuf
      have he := hsame c hcb
      exact ⟨c, (hcached c).mpr ⟨hcb, hc, he⟩, by rw [he, hdev], by rw [he, hblk]⟩

theorem CacheInv.unpinAll (h : CacheInv m) (ps : List Nat) :
    CacheInv (ps.foldl ppageUnpin m) := by
  induction ps generalizing m with
  | nil => exact h
  | cons p ps ih => exact ih (h.unpin p)

/-- The chain is unpinned: the pin counts are what they were. -/
theorem Pins.unpin {chain : List DiskBuf} (h : Pins m₀ m (chainRefs chain)) :
    diskBufFreeChain m chain = { m with
      pages := fun p => { m.pages p with pinned := (m₀.pages p).pinned } } := by
  rw [diskBufFreeChain_eq, foldl_unpin _ fun p => by rw [h p]; omega]
  congr 1
  funext p
  rw [h p, Nat.add_sub_cancel]

/-- The chain is unpinned and the blocks read so far are dropped. -/
theorem Reading.cleanup {i : Nat}
    {chain : List DiskBuf} (h : Reading m₀ dev block num i chain m) (hi : i < 2 ^ 64) :
    CacheInv (bcReadCleanup dev block i 0 (diskBufFreeChain m chain)) ∧
    Calm m₀ (bcReadCleanup dev block i 0 (diskBufFreeChain m chain)) ∧
    Pins m₀ (bcReadCleanup dev block i 0 (diskBufFreeChain m chain)) [] ∧
    (3 * num ≤ spare m₀ →
      (bcReadCleanup dev block i 0 (diskBufFreeChain m chain)).panicked = m₀.panicked) := by
  have hinv : CacheInv (diskBufFreeChain m chain) := by
    rw [diskBufFreeChain_eq]
    exact h.inv.unpinAll _
  have heq := h.pins.unpin
  have hcalm : Calm m₀ (diskBufFreeChain m chain) := by
    rw [heq]
    exact ⟨h.calm.nppage, fun p => le_rfl, h.calm.held, h.calm.cached⟩
  obtain ⟨hinv', hcalm', hpins', hpan'⟩ := bcReadCleanup_spec dev block hi i
    (zero_add i) hinv hcalm (by rw [heq]; exact fun p => rfl) fun j _ hj b hb => by
      rw [heq] at hb ⊢
      exact h.done j hj b hb
  refine ⟨hinv', hcalm', hpins', fun hsp => ?_⟩
  obtain ⟨hpan, hall⟩ := h.there hsp
  have hpan₂ : (diskBufFreeChain m chain).panicked = m.panicked := by
    rw [heq]
  refine (hpan' fun j _ hj => ?_).trans (hpan₂.trans hpan)
  obtain ⟨b, hb, -⟩ := hall j hj
  rw [heq]
  exact ⟨b, hb⟩

/-- **What `bc_read_extent64` does.** Of the pins, only those of the chain handed to the driver
    remain, and with three empty pages to a block no assertion fails. -/
theorem bcReadExtent64_spec {k k' : Kernel}
    {res : Option Nat} {userreq : Bool} {r : Ret} (h : CacheInv k.mem) (hnum : num < 2 ^ 64)
    (hnone : ∀ j < num, bcLookup64 k.mem dev (block + BitVec.ofNat 64 j) = none)
    (heq : bcReadExtent64 k dev block num res userreq = (r, k')) :
    ∃ m, k' = k.setMem m ∧ CacheInv m ∧ Calm k.mem m ∧
      Pins k.mem m (chainRefs (bcReadChain k dev block num res userreq)) ∧
      (3 * num ≤ spare k.mem → m.panicked = k.mem.panicked) := by
  obtain ⟨m, hk, hle, hread⟩ := Reading.loop hnum res userreq num (zero_add num)
    (Reading.start h hnone) id
  obtain ⟨hinv, hcalm, hpins, hpan⟩ := hread.cleanup (by omega)
  have hend := bcReadExtent64_cases rfl heq
  generalize bcReadChain k dev block num res userreq = chain at hend ⊢
  dsimp only at hend
  generalize bcReadLoop dev block res userreq num 0 [] k = l at hk hread hinv hcalm hpins hpan hend
  obtain ⟨result, done, chain', k₁⟩ := l
  obtain rfl : k₁ = k.setMem m := hk
  rcases hend with ⟨rfl, rfl⟩ | ⟨-, rfl, rfl⟩
  · exact ⟨_, rfl, hinv, hcalm, hpins, hpan⟩
  · exact ⟨m, rfl, hread.inv, hread.calm, hread.pins, fun hsp => (hread.there hsp).1⟩

end Exokernel
