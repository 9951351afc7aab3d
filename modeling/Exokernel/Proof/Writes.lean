import Exokernel.Proof.Bijection

/-!
# Outstanding writes — `bc_write_extent64` and `bc_diskreq_done64`

A cached block that is being written says so twice: `BC_GOING_OUT` is set, and `buf_writecnt`
counts the requests. `bc_write_extent64` raises both for one block after another and takes all of
it back when a later block fails. **What it saved of a block is worth nothing unless the block is
still there**, and `malloc`, which is called for each request before the block's page is pinned,
may have taken the page. `Room` says that it does not: there are empty pages enough, or the pages
are not for taking.

`Writing` is what holds between two blocks. Since only the blocks done so far differ from the
state before the call (`Bumped`), undoing them one by one restores it.
-/
set_option autoImplicit false

namespace Exokernel

open List Nat

/-! ## 1. Headers with one write more -/

/-- Header `e'` is `e`, with one write more if `up`. -/
structure Bump (up : Prop) [Decidable up] (e e' : BcEntry) : Prop where
  dev : e'.dev = e.dev
  blk64 : e'.blk64 = e.blk64
  ppn : e'.ppn = e.ppn
  writecnt : e'.writecnt = if up then e.writecnt + 1 else e.writecnt
  state : e'.state = if up then e.state ||| bcGoingOut else e.state

/-- Blocks may have been dropped, but none from a pinned page. Of those that are there, the ones
    in `hs` have one write more. -/
structure Bumped (m₀ m : Mem) (hs : List Nat) : Prop where
  nppage : m.nppage = m₀.nppage
  pinned : ∀ p, (m₀.pages p).pinned ≤ (m.pages p).pinned
  held : ∀ p, (m₀.pages p).pinned ≠ 0 → (m₀.pages p).buf ≠ none →
    (m.pages p).buf = (m₀.pages p).buf
  cached : ∀ c, Cached m c → Cached m₀ c ∧ Bump (c ∈ hs) (m₀.bufs c) (m.bufs c)

/-- The header of a block that is going out. -/
def BcEntry.goOut (e : BcEntry) : BcEntry :=
  { e with writecnt := e.writecnt + 1, state := e.state ||| bcGoingOut }

namespace Bumped

variable {m₀ m m' : Mem} {hs hs' : List Nat} {b : Nat}

theorem refl (m : Mem) : Bumped m m [] :=
  ⟨rfl, fun _ => le_rfl, fun _ _ _ => rfl, fun c hc => ⟨hc, rfl, rfl, rfl, by simp, by simp⟩⟩

section

variable (h : Bumped m₀ m hs)
include h

theorem step (hcalm : Calm m m')
    (hc : ∀ c, Cached m' c → Cached m c ∧ SameBuf (m.bufs c) (m'.bufs c)) : Bumped m₀ m' hs where
  nppage := hcalm.nppage.trans h.nppage
  pinned p := (h.pinned p).trans (hcalm.pinned p)
  held p hp hb := by
    have hle := h.pinned p
    have he := h.held p hp hb
    rw [hcalm.held p (by omega) (he ▸ hb), he]
  cached c hc' := by
    obtain ⟨hcm, hs⟩ := hc c hc'
    obtain ⟨hc₀, hb⟩ := h.cached c hcm
    exact ⟨hc₀, hs.dev.trans hb.dev, hs.blk64.trans hb.blk64, hs.ppn.trans hb.ppn,
      hs.writecnt.trans hb.writecnt, hs.state.trans hb.state⟩

theorem takes (ht : Takes m m') : Bumped m₀ m' hs :=
  h.step ht.calm fun c hc => by
    obtain ⟨hc', he⟩ := ht.cached c hc
    exact ⟨hc', by rw [he]; exact .refl _⟩

theorem dirtyOnly (hd : DirtyOnly m m') : Bumped m₀ m' hs :=
  h.step hd.calm fun c hc => ⟨(hd.cached c).mp hc, hd.same c⟩

theorem pin (p : Nat) : Bumped m₀ (ppagePin m p) hs :=
  h.step (.pin m p) fun _ hc => ⟨hc, .refl _⟩

theorem pinRes (res : Option Nat) : Bumped m₀ (pinRes m res) hs := by
  cases res with
  | none => exact h
  | some p => exact h.pin p

theorem assert (c : Bool) : Bumped m₀ (m.assert c) hs := by
  refine h.step (.assert m c) fun b hb => ?_
  cases c with
  | true => exact ⟨hb, .refl _⟩
  | false => exact ⟨hb, .refl _⟩

end

theorem modBuf (h : Bumped m₀ m hs) {f : BcEntry → BcEntry}
    (hf : (f (m.bufs b)).dev = (m.bufs b).dev ∧ (f (m.bufs b)).blk64 = (m.bufs b).blk64 ∧
      (f (m.bufs b)).ppn = (m.bufs b).ppn)
    (hself : Cached m b → Bump (b ∈ hs') (m₀.bufs b) (f (m.bufs b)))
    (hs : ∀ c, c ≠ b → (c ∈ hs' ↔ c ∈ hs)) : Bumped m₀ (m.modBuf b f) hs' where
  nppage := h.nppage
  pinned := h.pinned
  held := h.held
  cached c hc := by
    by_cases hcb : c = b
    · subst hcb
      have hcm : Cached m c := by
        simpa [Cached, Mem.modBuf, hf] using hc
      refine ⟨(h.cached c hcm).1, ?_⟩
      simpa [Mem.modBuf] using hself hcm
    · have hcm : Cached m c := by
        simpa [Cached, Mem.modBuf, hcb] using hc
      obtain ⟨hc₀, hb⟩ := h.cached c hcm
      have he : (m.modBuf b f).bufs c = m.bufs c := by
        simp [Mem.modBuf, hcb]
      rw [he]
      exact ⟨hc₀, hb.dev, hb.blk64, hb.ppn, by rw [hb.writecnt, if_congr (hs c hcb) rfl rfl],
        by rw [hb.state, if_congr (hs c hcb) rfl rfl]⟩

/-- **One more block is going out.** -/
theorem raise (h : Bumped m₀ m hs) (hb : b ∉ hs) :
    Bumped m₀ (m.modBuf b BcEntry.goOut) (hs ++ [b]) := by
  refine h.modBuf ⟨rfl, rfl, rfl⟩ (fun hc => ?_) fun c hcb => by simp [hcb]
  obtain ⟨-, hbump⟩ := h.cached b hc
  refine ⟨hbump.dev, hbump.blk64, hbump.ppn, ?_, ?_⟩
  · simp [BcEntry.goOut, hbump.writecnt, hb]
  · simp [BcEntry.goOut, hbump.state, hb]

/-- **A block is taken back**, with the state that was saved of it. -/
theorem lower (h : Bumped m₀ m hs) (hb : b ∈ hs) (hs' : List Nat) (hb' : b ∉ hs')
    (hsub : ∀ c, c ≠ b → (c ∈ hs' ↔ c ∈ hs)) :
    Bumped m₀ (m.modBuf b fun e =>
      { e with writecnt := e.writecnt - 1, state := (m₀.bufs b).state }) hs' := by
  refine h.modBuf ⟨rfl, rfl, rfl⟩ (fun hc => ?_) hsub
  obtain ⟨-, hbump⟩ := h.cached b hc
  refine ⟨hbump.dev, hbump.blk64, hbump.ppn, ?_, ?_⟩
  · simp [hbump.writecnt, hb, hb']
  · simp [hb']

theorem stays (h : Bumped m₀ m hs) (h₀ : CacheInv m₀) (hm : CacheInv m) {c : Nat}
    (hc : Cached m₀ c) (hpin : (m₀.pages (m₀.bufs c).ppn).pinned ≠ 0) :
    Cached m c ∧ Bump (c ∈ hs) (m₀.bufs c) (m.bufs c) := by
  obtain ⟨hlt, hbuf⟩ := h₀.bufOf hc
  have hbuf' := (h.held _ hpin (by rw [hbuf]; exact nofun)).trans hbuf
  obtain ⟨hc', -⟩ := (hm.page.cache.pageBuf _ (h.nppage ▸ hlt) c).mp hbuf'
  exact ⟨hc', (h.cached c hc').2⟩

end Bumped

variable {block : BitVec 64} {dev : BitVec 32} {m m₀ : Mem} {num : Nat}

theorem CacheInv.raise (h : CacheInv m) (b : Nat) : CacheInv (m.modBuf b BcEntry.goOut) := by
  refine h.modBuf b rfl rfl rfl rfl fun hv hz => hv ?_
  have hor : ((m.bufs b).state ||| bcGoingOut) &&& bcValid = 0#32 := hz
  rw [BitVec.and_or_distrib_right, BitVec.or_eq_zero_iff] at hor
  exact hor.1

/-! ## 2. Pages that `malloc` does not take -/

section
variable {m m' : Mem} {b p : Nat}

/-- Allocation takes reclaimable pages only. -/
theorem ppageFindFree_reclaimable (h : PageInv m) {userreq : Bool}
    (hf : ppageFindFree m userreq = .ok p) : ppageIsReclaimable m p = true := by
  rcases ppageFindFree_cases hf with ⟨hmem, hpin⟩ | ⟨-, hrec⟩
  · obtain ⟨-, hs, hnone⟩ := (h.free.memList p).mp hmem
    simp [ppageIsReclaimable, hs, hpin, hnone]
  · exact hrec

/-- **`malloc` leaves a cached page alone** if there is an empty one, or if the page is not for
    taking. -/
theorem kmalloc_leaves (h : PageInv m) {ok : Bool} (hm : kmalloc m = (ok, m'))
    (hbuf : (m.pages p).buf ≠ none) (hroom : 0 < spare m ∨ ¬ppageIsReclaimable m p = true) :
    m'.pages p = m.pages p := by
  rcases hroom with hspare | hrec
  · obtain ⟨m₁, hm₁, -, -, hsame⟩ := kmalloc_spare h hspare
    obtain rfl : m₁ = m' := (Prod.mk.inj (hm₁.symm.trans hm)).2
    exact hsame p hbuf
  obtain ⟨f, rfl | ⟨q, hf, rfl⟩⟩ := kmalloc_cases hm
  · rfl
  · have htick := h.mallocTick (f := f)
    obtain ⟨hlt, hs, -⟩ := ppageFindFree_ok htick hf
    have hne : p ≠ q := by
      rintro rfl
      have hr := ppageFindFree_reclaimable htick hf
      exact hrec hr
    rw [(ppageReclaim_spec htick hlt hs).1, Function.update_of_ne hne]

/-- What it takes for a cached block's page to be for taking. -/
theorem CacheInv.reclaimable_iff (h : CacheInv m) (hb : Cached m b) :
    ppageIsReclaimable m (m.bufs b).ppn = true ↔
      (m.pages (m.bufs b).ppn).status = .free ∧ (m.pages (m.bufs b).ppn).pinned = 0 ∧
        (m.bufs b).tainted = false ∧ (m.bufs b).dirty = false := by
  obtain ⟨-, hbuf⟩ := h.bufOf hb
  simp [ppageIsReclaimable, hbuf, bcIsReclaimable, bcIsTainted, bcIsDirty, and_assoc]

end

/-- `n` calls of `malloc` leave blocks `i, …, num - 1` of the extent in the cache. -/
def Room (m : Mem) (dev : BitVec 32) (block : BitVec 64) (i num n : Nat) : Prop :=
  n ≤ spare m ∨ ∀ j, i ≤ j → j < num → ∀ b, ForBlock m dev block j b →
    ¬ppageIsReclaimable m (m.bufs b).ppn = true

namespace Room

variable {m m' : Mem} {dev : BitVec 32} {block : BitVec 64} {i i' num n n' : Nat} {b : Nat}

theorem step (h : Room m dev block i num n) (hs : n ≤ spare m → n' ≤ spare m')
    (hr : ∀ j, i' ≤ j → j < num → ∀ c, ForBlock m' dev block j c →
      i ≤ j ∧ ForBlock m dev block j c ∧
        (ppageIsReclaimable m' (m'.bufs c).ppn = true → ppageIsReclaimable m (m.bufs c).ppn = true)) :
    Room m' dev block i' num n' := by
  refine h.imp hs fun hall j hi hj c hc hrec => ?_
  obtain ⟨hij, hcm, himp⟩ := hr j hi hj c hc
  exact hall j hij hj c hcm (himp hrec)

theorem leaves (h : Room m dev block i num (n + 1)) (hi : i < num) (hinv : CacheInv m) {ok : Bool}
    (hm : kmalloc m = (ok, m')) (hb : ForBlock m dev block i b) :
    m'.pages (m.bufs b).ppn = m.pages (m.bufs b).ppn := by
  refine kmalloc_leaves hinv.page hm ?_ ?_
  · rw [(hinv.bufOf hb.1).2]
    exact nofun
  rcases h with hspare | hall
  · exact .inl (by omega)
  · exact .inr (hall i le_rfl hi b hb)

theorem kmalloc (h : Room m dev block i num (n + 1)) (hinv : CacheInv m) {ok : Bool}
    (hm : kmalloc m = (ok, m')) : Room m' dev block i num n := by
  obtain ⟨hinv', ht⟩ := hinv.kmalloc hm
  have hle := spare_kmalloc hinv.page hm
  rcases h with hspare | hall
  · exact .inl (by omega)
  refine .inr fun j hi hj c hc hrec => ?_
  obtain ⟨hcm, he⟩ := ht.cached c hc.1
  have hcm' : ForBlock m dev block j c := ⟨hcm, he ▸ hc.2.1, he ▸ hc.2.2⟩
  have hnot := hall j hi hj c hcm'
  have hpage := kmalloc_leaves hinv.page hm (by rw [(hinv.bufOf hcm).2]; exact nofun) (.inr hnot)
  rw [hinv'.reclaimable_iff hc.1, he, hpage] at hrec
  exact hnot ((hinv.reclaimable_iff hcm).mpr hrec)

theorem modBuf (h : Room m dev block i num n) {f : BcEntry → BcEntry}
    (hf : ∀ e, (f e).dev = e.dev ∧ (f e).blk64 = e.blk64 ∧ (f e).ppn = e.ppn ∧
      (f e).dirty = e.dirty ∧ (f e).tainted = e.tainted) : Room (m.modBuf b f) dev block i num n := by
  have hall : ∀ c, ((m.modBuf b f).bufs c).dev = (m.bufs c).dev ∧
      ((m.modBuf b f).bufs c).blk64 = (m.bufs c).blk64 ∧
      ((m.modBuf b f).bufs c).ppn = (m.bufs c).ppn ∧
      ((m.modBuf b f).bufs c).dirty = (m.bufs c).dirty ∧
      ((m.modBuf b f).bufs c).tainted = (m.bufs c).tainted := by
    intro c
    by_cases hc : c = b
    · subst hc
      simpa [Mem.modBuf] using hf (m.bufs c)
    · simp [Mem.modBuf, hc]
  refine h.step id fun j hi _ c hc => ⟨hi, ⟨?_, ?_, ?_⟩, fun hrec => ?_⟩
  · have hcc := hc.1
    rwa [Cached, (hall c).1, (hall c).2.1] at hcc
  · rw [← (hall c).1, hc.2.1]
  · rw [← (hall c).2.1, hc.2.2]
  rw [(hall c).2.2.1] at hrec
  unfold ppageIsReclaimable bcIsReclaimable bcIsTainted bcIsDirty at hrec ⊢
  have hp : (m.modBuf b f).pages = m.pages := rfl
  rw [hp] at hrec
  cases hbuf : (m.pages (m.bufs c).ppn).buf with
  | none =>
    rw [hbuf] at hrec
    exact hrec
  | some d =>
    rw [hbuf] at hrec
    simpa [(hall d).2.2.2.1, (hall d).2.2.2.2] using hrec

theorem pin (h : Room m dev block i num n) (hinv : CacheInv m) (hb : Cached m b) :
    Room (ppagePin m (m.bufs b).ppn) dev block i num n := by
  obtain ⟨-, hbuf⟩ := hinv.bufOf hb
  have hspare : spare (ppagePin m (m.bufs b).ppn) = spare m := by
    refine spare_congr rfl fun q hq => ?_
    have hne : q ≠ (m.bufs b).ppn := by
      rintro rfl
      rw [((hinv.page.free.memList _).mp hq).2.2] at hbuf
      cases hbuf
    simp [ppagePin, Mem.modPage, hne]
  refine h.step (fun hs => hspare ▸ hs) fun j hi _ c hc => ⟨hi, hc, fun hrec => ?_⟩
  rw [(hinv.pin _).reclaimable_iff hc.1] at hrec
  rw [hinv.reclaimable_iff hc.1]
  obtain ⟨hs, hp, ht⟩ := hrec
  have hbufs : (ppagePin m (m.bufs b).ppn).bufs c = m.bufs c := rfl
  rw [hbufs] at hs hp ht
  by_cases hq : (m.bufs c).ppn = (m.bufs b).ppn
  · rw [hq] at hp
    simp [ppagePin, Mem.modPage] at hp
  · simp only [ppagePin, Mem.modPage, Function.update_of_ne hq] at hs hp
    exact ⟨hs, hp, ht⟩

/-- The block in hand is marked clean; the others are further on. -/
theorem setClean (h : Room m dev block i num n) (hinv : CacheInv m) (hb : ForBlock m dev block i b)
    (hnum : num < 2 ^ 64) : Room (bcSetClean m b) dev block (i + 1) num n := by
  have hd := dirtyOnly_setClean m b
  have hinv' := hinv.setClean hb.1
  have hlist : (bcSetClean m b).freeList = m.freeList := by
    obtain ⟨n, he⟩ := bcSetClean_eq m b
    rw [he]
  refine h.step (fun hs => ?_) fun j hi hj c hc => ?_
  · rwa [spare_congr hlist fun q _ => by rw [hd.pages]]
  have hs := hd.same c
  have hcm : ForBlock m dev block j c :=
    ⟨(hd.cached c).mp hc.1, hs.dev ▸ hc.2.1, hs.blk64 ▸ hc.2.2⟩
  refine ⟨by omega, hcm, fun hrec => ?_⟩
  have hcb : c ≠ b := by
    rintro rfl
    exact block_ne _ (i := i) (j := j) (by omega) (by omega) (by omega)
      (hb.2.2.symm.trans hcm.2.2)
  have he : (bcSetClean m b).bufs c = m.bufs c := by
    obtain ⟨n, he⟩ := bcSetClean_eq m b
    simp [he, hcb]
  rw [hinv'.reclaimable_iff hc.1, he, hd.pages] at hrec
  exact (hinv.reclaimable_iff hcm.1).mpr hrec

end Room

/-! ## 3. Writing an extent -/

/-- The state of `bc_write_extent64` after the blocks with headers `hs`: each of them is cached
    on a pinned page, has one write more, and is in the chain; its old state is saved. -/
structure Writing (m₀ m : Mem) (dev : BitVec 32) (block : BitVec 64) (bsize : BitVec 32)
    (hs : List Nat) (saved : List BufSave) (chain : List DiskBuf) : Prop where
  inv : CacheInv m
  bumped : Bumped m₀ m hs
  pins : Pins m₀ m (chainRefs chain)
  there : ∀ j b, hs[j]? = some b → ForBlock m dev block j b
  pages : chain.map (·.page) = hs.map fun b => (m₀.bufs b).ppn
  blknos : chain.map (·.blkno) =
    (List.range hs.length).map fun j => (block + BitVec.ofNat 64 j) * 4096 / bsize.setWidth 64
  saved : saved.map (·.state) = hs.map fun b => (m₀.bufs b).state

namespace Writing

variable {m₀ m m' : Mem} {dev : BitVec 32} {block : BitVec 64} {bsize : BitVec 32} {hs : List Nat}
  {saved : List BufSave} {chain : List DiskBuf} {num b : Nat}

theorem start (h : CacheInv m) (hb : Bumped m₀ m []) (hp : Pins m₀ m []) :
    Writing m₀ m dev block bsize [] [] [] :=
  ⟨h, hb, by simpa [chainRefs] using hp, nofun, rfl, rfl, rfl⟩

variable (h : Writing m₀ m dev block bsize hs saved chain)
include h

theorem notMem (hlen : hs.length < 2 ^ 64)
    (hb : ForBlock m dev block hs.length b) : b ∉ hs := by
  intro hmem
  obtain ⟨j, hj, he⟩ := mem_iff_getElem.mp hmem
  have hfor := h.there j b (by rw [List.getElem?_eq_getElem hj, he])
  exact block_ne _ (i := j) (j := hs.length) (by omega) hlen (by omega)
    (hfor.2.2.symm.trans hb.2.2)

theorem nodup (hlen : hs.length < 2 ^ 64) :
    hs.Nodup := by
  rw [nodup_iff_getElem?_ne_getElem?]
  intro i j hij hj he
  obtain ⟨b, hb⟩ : ∃ b, hs[j]? = some b := ⟨_, List.getElem?_eq_getElem hj⟩
  have hi := (h.there i b (he.trans hb)).2.2
  exact block_ne _ (i := i) (j := j) (by omega) (by omega) (by omega)
    (hi.symm.trans (h.there j b hb).2.2)

/-- The block in hand has no write more yet, so its state is what it was. -/
theorem state_eq (hb : Cached m b)
    (hnot : b ∉ hs) : (m.bufs b).state = (m₀.bufs b).state ∧ (m.bufs b).ppn = (m₀.bufs b).ppn := by
  obtain ⟨-, hbump⟩ := h.bumped.cached b hb
  exact ⟨by simpa [hnot] using hbump.state, hbump.ppn⟩

theorem pinned (hb : b ∈ hs) :
    Cached m b ∧ (m.pages (m.bufs b).ppn).pinned ≠ 0 := by
  obtain ⟨j, hj, he⟩ := mem_iff_getElem.mp hb
  have hfor := h.there j b (by rw [List.getElem?_eq_getElem hj, he])
  refine ⟨hfor.1, ?_⟩
  obtain ⟨-, hbump⟩ := h.bumped.cached b hfor.1
  have hmem : (m₀.bufs b).ppn ∈ chain.map (·.page) := by
    rw [h.pages]
    exact mem_map_of_mem hb
  obtain ⟨d, hd, hpage⟩ := mem_map.mp hmem
  have hcount : 0 < (chainRefs chain).count (m₀.bufs b).ppn := by
    rw [count_pos_iff]
    exact mem_flatMap.mpr ⟨d, hd, by simp [DiskBuf.refs, hpage]⟩
  have hpin := h.pins (m₀.bufs b).ppn
  rw [hbump.ppn]
  omega

/-- The blocks done so far are still there after a step that leaves pinned pages alone. -/
theorem still {up : List Nat}
    (hb : Bumped m m' up) (hinv : CacheInv m') :
    ∀ j b, hs[j]? = some b → ForBlock m' dev block j b := by
  intro j b hj
  obtain ⟨-, hdev, hblk⟩ := h.there j b hj
  obtain ⟨hc, hpin⟩ := h.pinned (mem_of_getElem? hj)
  obtain ⟨hc', hbump⟩ := hb.stays h.inv hinv hc hpin
  exact ⟨hc', hbump.dev.trans hdev, hbump.blk64.trans hblk⟩

/-- **No request could be made** for the block in hand: its header gets its state back. -/
theorem undo (hlen : hs.length < 2 ^ 64)
    (hb : ForBlock m dev block hs.length b) (hinv : CacheInv m')
    (ht : Takes (m.modBuf b BcEntry.goOut) m') :
    Writing m₀ (m'.modBuf b fun e =>
      { e with writecnt := e.writecnt - 1, state := (m.bufs b).state }) dev block bsize hs saved
      chain := by
  have hnot := h.notMem hlen hb
  obtain ⟨hstate, -⟩ := h.state_eq hb.1 hnot
  have hinv' : CacheInv (m'.modBuf b fun e =>
      { e with writecnt := e.writecnt - 1, state := (m.bufs b).state }) :=
    hinv.modBuf b rfl rfl rfl rfl fun _ => h.inv.page.cache.valid b hb.1
  have hself : Bumped m (m'.modBuf b fun e =>
      { e with writecnt := e.writecnt - 1, state := (m.bufs b).state }) [] :=
    ((((Bumped.refl m).raise not_mem_nil).takes ht).lower (by simp) [] not_mem_nil
      fun c hcb => by simp [hcb])
  have hback : Bumped m₀ (m'.modBuf b fun e =>
      { e with writecnt := e.writecnt - 1, state := (m.bufs b).state }) hs := by
    rw [hstate]
    exact (((h.bumped.raise hnot).takes ht).lower (by simp) hs hnot fun c hcb => by simp [hcb])
  refine ⟨hinv', hback, fun p => ?_, h.still hself hinv', h.pages, h.blknos, h.saved⟩
  have hp := h.pins p
  rw [← hp]
  exact ht.pinned_eq p

/-- **A request was made** for the block in hand. -/
theorem commit (hlen : hs.length < 2 ^ 64)
    (hb : ForBlock m dev block hs.length b) (hinv : CacheInv m')
    (ht : Takes (m.modBuf b BcEntry.goOut) m') (hb' : Cached m' b) (res : Option Nat)
    (old : BufSave) (hold : old.state = (m.bufs b).state) :
    Writing m₀ (bcSetClean (pinRes (ppagePin m' (m.bufs b).ppn) res) b) dev block bsize (hs ++ [b])
      (saved ++ [old])
      (chain ++ [⟨(block + BitVec.ofNat 64 hs.length) * 4096 / bsize.setWidth 64, (m.bufs b).ppn,
        res⟩]) := by
  have hnot := h.notMem hlen hb
  obtain ⟨hstate, hppn⟩ := h.state_eq hb.1 hnot
  have hcached : Cached (pinRes (ppagePin m' (m.bufs b).ppn) res) b := by
    cases res with
    | none => exact hb'
    | some q => exact hb'
  have hd := dirtyOnly_setClean (pinRes (ppagePin m' (m.bufs b).ppn) res) b
  have hinv' := ((hinv.pin (m.bufs b).ppn).pinRes res).setClean hcached
  have hup : ∀ {m₁ : Mem} {l : List Nat}, Bumped m₁ (m.modBuf b BcEntry.goOut) l →
      Bumped m₁ (bcSetClean (pinRes (ppagePin m' (m.bufs b).ppn) res) b) l := fun hbm =>
    (((hbm.takes ht).pin _).pinRes res).dirtyOnly hd
  have hself : Bumped m (bcSetClean (pinRes (ppagePin m' (m.bufs b).ppn) res) b) ([] ++ [b]) :=
    hup ((Bumped.refl m).raise not_mem_nil)
  refine ⟨hinv', hup (h.bumped.raise hnot), ?_, fun j c hj => ?_, ?_, ?_, ?_⟩
  · have hraise : Pins m (m.modBuf b BcEntry.goOut) [] := fun p => by simp [Mem.modBuf]
    have hpins := ((((h.pins.trans hraise).trans ht.pins).trans (pins_pin m' (m.bufs b).ppn)).trans
      (pins_pinRes _ res)).trans hd.pins
    rw [chainRefs_append]
    simpa [chainRefs, DiskBuf.refs] using hpins
  · rcases lt_trichotomy j hs.length with hlt | rfl | hgt
    · rw [List.getElem?_append_left hlt] at hj
      exact h.still hself hinv' j c hj
    · obtain rfl : b = c := by simpa using hj
      have hs := (hself.cached b ((hd.cached b).mpr hcached)).2
      exact ⟨(hd.cached b).mpr hcached, hs.dev.trans hb.2.1, hs.blk64.trans hb.2.2⟩
    · rw [List.getElem?_eq_none (by simp; omega)] at hj
      cases hj
  · simp [h.pages, hppn]
  · rw [map_append, h.blknos, length_append, length_singleton, range_succ, map_append]
    rfl
  · simp [h.saved, hold, hstate]

end Writing

theorem block_low {i : Nat} (hnum : block.toNat + num ≤ 2 ^ 32)
    (hi : i < num) :
    ((block + BitVec.ofNat 64 i).setWidth 32).setWidth 64 = block + BitVec.ofNat 64 i := by
  apply BitVec.eq_of_toNat_eq
  have h₁ : (block + BitVec.ofNat 64 i).toNat = block.toNat + i := by
    rw [BitVec.toNat_add, BitVec.toNat_ofNat, mod_eq_of_lt (by omega : i < 2 ^ 64),
      mod_eq_of_lt (by omega)]
  rw [BitVec.toNat_setWidth, BitVec.toNat_setWidth, h₁, mod_eq_of_lt (by omega),
    mod_eq_of_lt (by omega)]

/-- **The loop of `bc_write_extent64`.** -/
theorem Writing.loop
    (hnum : block.toNat + num ≤ 2 ^ 32) (res : Option Nat) (left : Nat) :
    ∀ {hs : List Nat} {saved : List BufSave} {chain : List DiskBuf} {k : Kernel},
      hs.length + left = num →
      Writing m₀ k.mem dev block (k.disks dev.toNat).bsize hs saved chain →
      Room k.mem dev block hs.length num left →
      ∃ m hs', (bcWriteLoop dev block res left hs.length saved chain k).k = k.setMem m ∧
        hs'.length ≤ num ∧
        Writing m₀ m dev block (k.disks dev.toNat).bsize hs'
          (bcWriteLoop dev block res left hs.length saved chain k).saved
          (bcWriteLoop dev block res left hs.length saved chain k).chain := by
  induction left with
  | zero => exact fun hlen h _ => ⟨_, _, rfl, hlen.le, h⟩
  | succ left ih =>
    intro hs saved chain k hlen h hroom
    have hi : hs.length < num := by omega
    unfold bcWriteLoop
    dsimp only
    rw [bcLookup, block_low hnum hi]
    split
    · exact ⟨k.mem, hs, rfl, hi.le, h⟩
    rename_i b hl
    have hb : ForBlock k.mem dev block hs.length b := bcLookup64_some h.inv.page.cache hl
    split
    · exact ⟨k.mem, hs, rfl, hi.le, h⟩
    have hraise := h.inv.raise b
    have hroom₁ : Room (k.mem.modBuf b BcEntry.goOut) dev block hs.length num (left + 1) :=
      hroom.modBuf fun _ => ⟨rfl, rfl, rfl, rfl, rfl⟩
    have hb₁ : ForBlock (k.mem.modBuf b BcEntry.goOut) dev block hs.length b := by
      simpa [ForBlock, Cached, Mem.modBuf, BcEntry.goOut] using hb
    have hk₁ : (k.mem.modBuf b fun e =>
        { e with writecnt := e.writecnt + 1, state := e.state ||| bcGoingOut }) =
        k.mem.modBuf b BcEntry.goOut := rfl
    rw [hk₁]
    split
    · rename_i e k₂ hprep
      rcases diskPrepareBcRequest_cases hprep with ⟨-, rfl | ⟨ok, m₂, hm, rfl⟩⟩ | ⟨m₂, -, hr, -⟩
      · exact ⟨_, hs, rfl, hi.le, h.undo (by omega) hb hraise (.refl _)⟩
      · obtain ⟨hinv₂, ht⟩ := hraise.kmalloc hm
        exact ⟨_, hs, rfl, hi.le, h.undo (by omega) hb hinv₂ ht⟩
      · cases hr
    rename_i chain' k₂ hprep
    rcases diskPrepareBcRequest_cases hprep with ⟨⟨e, hr⟩, -⟩ | ⟨m₂, hm, hr, rfl⟩
    · cases hr
    cases hr
    obtain ⟨hinv₂, ht⟩ := hraise.kmalloc hm
    have hppn₁ : ((k.mem.modBuf b BcEntry.goOut).bufs b).ppn = (k.mem.bufs b).ppn := by
      simp [Mem.modBuf, BcEntry.goOut]
    have hleaves := hroom₁.leaves hi hraise hm hb₁
    have hb₂ : Cached m₂ b := by
      obtain ⟨hlt, hbuf⟩ := hraise.bufOf hb₁.1
      rw [← hleaves] at hbuf
      exact ((hinv₂.page.cache.pageBuf _ (ht.nppage ▸ hlt) b).mp hbuf).1
    have hppn₂ : (m₂.bufs b).ppn = (k.mem.bufs b).ppn := by
      rw [(ht.cached b hb₂).2, hppn₁]
    have hfor₂ : ForBlock m₂ dev block hs.length b := by
      rw [ForBlock, (ht.cached b hb₂).2]
      exact ⟨hb₂, hb₁.2⟩
    have hroom₂ := (hroom₁.kmalloc hraise hm).pin hinv₂ hb₂
    rw [hppn₂] at hroom₂
    generalize hres : (if left = 0 then res else none) = res'
    have hpinned : CacheInv (pinRes (ppagePin m₂ (k.mem.bufs b).ppn) res') :=
      (hinv₂.pin _).pinRes res'
    have hroom₃ : Room (pinRes (ppagePin m₂ (k.mem.bufs b).ppn) res') dev block hs.length num
        left := by
      cases left with
      | zero => exact .inl (zero_le _)
      | succ n =>
        obtain rfl : none = res' := hres
        exact hroom₂
    have hfor₃ : ForBlock (pinRes (ppagePin m₂ (k.mem.bufs b).ppn) res') dev block hs.length
        b := by
      cases res' with
      | none => exact hfor₂
      | some q => exact hfor₂
    have hroom₄ := hroom₃.setClean hpinned hfor₃ (by omega)
    have hwrite := h.commit (by omega) hb hinv₂ ht hb₂ res'
      ⟨(k.mem.bufs b).state, (k.mem.bufs b).dirty⟩ rfl
    have hlen' : (hs ++ [b]).length = hs.length + 1 := by simp
    obtain ⟨m, hs', hk, hle, hfin⟩ := ih (k := k.setMem _) (by omega) hwrite (hlen' ▸ hroom₄)
    rw [hlen'] at hk hfin
    exact ⟨m, hs', hk, hle, hfin⟩

/-! ### The clean-up -/

/-- Only dirty bits moved, and the page invariant still holds. -/
theorem CacheInv.redirty (h : CacheInv m) {b : Nat} (hb : Cached m b) (old : Bool) :
    let m' := if old ≠ (m.bufs b).dirty then (if old then bcSetDirty m b else bcSetClean m b) else m
    CacheInv m' ∧ DirtyOnly m m' := by
  dsimp only
  split
  · split
    · exact ⟨h.setDirty hb, dirtyOnly_setDirty m b⟩
    · exact ⟨h.setClean hb, dirtyOnly_setClean m b⟩
  · exact ⟨h, .refl m⟩

/-- The clean-up of `bc_write_extent64` takes back the writes of the headers in `hs`. -/
theorem bcWriteCleanup_spec (dev : BitVec 32) (block : BitVec 64) (h₀ : CacheInv m₀)
    (saved : List BufSave) :
    ∀ {hs : List Nat} {j : Nat} {m : Mem},
      saved.map (·.state) = hs.map (fun b => (m₀.bufs b).state) → hs.Nodup → CacheInv m →
      Bumped m₀ m hs → (∀ i b, hs[i]? = some b → ForBlock m dev block (j + i) b) →
      CacheInv (bcWriteCleanup dev block saved j m) ∧
        Bumped m₀ (bcWriteCleanup dev block saved j m) [] ∧
        Pins m (bcWriteCleanup dev block saved j m) [] := by
  induction saved with
  | nil =>
    intro hs j m hsaved _ hinv hb _
    obtain rfl : hs = [] := by simpa using hsaved.symm
    exact ⟨hinv, hb, fun p => by simp [bcWriteCleanup]⟩
  | cons old saved ih =>
    intro hs j m hsaved hnd hinv hbump hthere
    cases hs with
    | nil => simp at hsaved
    | cons b hs =>
      obtain ⟨hhead, hsaved⟩ := List.cons.inj hsaved
      have hstate : old.state = (m₀.bufs b).state := hhead
      obtain ⟨hnot, hnd⟩ := nodup_cons.mp hnd
      obtain ⟨hc, hdev, hblk⟩ := hthere 0 b rfl
      have hl := hinv.keys.lookup hinv.page.cache hc
      rw [hdev, hblk, add_zero] at hl
      unfold bcWriteCleanup
      rw [hl]
      dsimp only
      set m₁ := m.assert ((m.bufs b).ppn ≠ 0) with hm₁
      have hinv₁ : CacheInv m₁ := hinv.assert _
      have hsame : m₁.bufs = m.bufs ∧ m₁.bcQs = m.bcQs ∧ m₁.pages = m.pages := by
        rw [hm₁, Mem.assert]
        split
        · exact ⟨rfl, rfl, rfl⟩
        · exact ⟨rfl, rfl, rfl⟩
      have hc₀ := (hbump.cached b hc).1
      have hlower : Bumped m₀ (m₁.modBuf b fun e =>
          { e with writecnt := e.writecnt - 1, state := old.state }) hs := by
        rw [hstate]
        exact (hbump.assert _).lower mem_cons_self hs hnot fun c hcb => by simp [hcb]
      have hinv₂ : CacheInv (m₁.modBuf b fun e =>
          { e with writecnt := e.writecnt - 1, state := old.state }) :=
        hinv₁.modBuf b rfl rfl rfl rfl fun _ => by
          have hv := h₀.page.cache.valid b hc₀
          rw [← hstate] at hv
          exact hv
      set m₂ := m₁.modBuf b fun e =>
        { e with writecnt := e.writecnt - 1, state := old.state } with hm₂
      have hkeys : ∀ c, (m₂.bufs c).dev = (m.bufs c).dev ∧ (m₂.bufs c).blk64 = (m.bufs c).blk64 := by
        intro c
        by_cases hcb : c = b
        · subst hcb
          simp [hm₂, Mem.modBuf, hsame]
        · simp [hm₂, Mem.modBuf, hcb, hsame]
      have hcached : ∀ c, Cached m c → Cached m₂ c := by
        intro c hcc
        rw [Cached, (hkeys c).1, (hkeys c).2, show m₂.bcQs = m.bcQs from hsame.2.1]
        exact hcc
      obtain ⟨hinv₃, hd⟩ := hinv₂.redirty (hcached b hc) old.dirty
      obtain ⟨hinv', hbump', hpins'⟩ := ih (j := j + 1) hsaved hnd hinv₃ (hlower.dirtyOnly hd)
        fun i c hi => by
          obtain ⟨hcc, hcdev, hcblk⟩ := hthere (i + 1) c hi
          have hs := hd.same c
          refine ⟨(hd.cached c).mpr (hcached c hcc), ?_, ?_⟩
          · rw [hs.dev, (hkeys c).1, hcdev]
          · rw [hs.blk64, (hkeys c).2, hcblk, add_assoc, add_comm 1 i]
      refine ⟨hinv', hbump', ?_⟩
      have hp₂ : Pins m m₂ [] := fun p => by
        rw [show m₂.pages = m.pages from hsame.2.2]
        simp
      exact (hp₂.trans hd.pins).trans hpins'

theorem Writing.cleanup {bsize : BitVec 32}
    {hs : List Nat} {saved : List BufSave} {chain : List DiskBuf}
    (h : Writing m₀ m dev block bsize hs saved chain) (h₀ : CacheInv m₀) (hlen : hs.length < 2 ^ 64) :
    Writing m₀ (bcWriteCleanup dev block saved 0 (diskBufFreeChain m chain)) dev block bsize [] []
      [] := by
  have heq := h.pins.unpin
  have hinv : CacheInv (diskBufFreeChain m chain) := by
    rw [diskBufFreeChain_eq]
    exact h.inv.unpinAll _
  have hbump : Bumped m₀ (diskBufFreeChain m chain) hs := by
    rw [heq]
    exact ⟨h.bumped.nppage, fun _ => le_rfl, h.bumped.held, h.bumped.cached⟩
  obtain ⟨hinv', hbump', hpins'⟩ := bcWriteCleanup_spec dev block h₀ saved (j := 0)
    h.saved (h.nodup hlen) hinv hbump fun i b hi => by
      rw [heq, zero_add]
      exact h.there i b hi
  have hpins : Pins m₀ (diskBufFreeChain m chain) [] := by
    rw [heq]
    exact fun p => rfl
  exact .start hinv' hbump' (hpins.trans hpins')

/-- **What `bc_write_extent64` does**: nothing, or one write more for each block of the chain. -/
theorem bcWriteExtent64_spec {k k' : Kernel}
    {res : Option Nat} {r : Ret} {chain : List DiskBuf} (h : CacheInv k.mem)
    (hnum : block.toNat + num ≤ 2 ^ 32) (hroom : Room k.mem dev block 0 num (num + 2))
    (heq : bcWriteExtent64 k dev block num res = (r, chain, k')) :
    ∃ m hs saved, k' = k.setMem m ∧ hs.length ≤ num ∧
      Writing k.mem m dev block (k.disks dev.toNat).bsize hs saved chain := by
  rcases bcWriteExtent64_cases heq with ⟨rfl, m, hm, rfl⟩ | ⟨m₁, ok, m, hm₁, hm, hend⟩
  · obtain ⟨hinv, ht⟩ := h.kmalloc hm
    exact ⟨m, [], [], rfl, zero_le _, .start hinv ((Bumped.refl _).takes ht) ht.pins⟩
  obtain ⟨hinv₁, ht₁⟩ := h.kmalloc hm₁
  obtain ⟨hinv, ht⟩ := hinv₁.kmalloc hm
  have hstart : Writing k.mem m dev block (k.disks dev.toNat).bsize [] [] [] :=
    .start hinv (((Bumped.refl _).takes ht₁).takes ht) (ht₁.pins.trans ht.pins)
  obtain ⟨m', hs, hk, hle, hwrite⟩ := Writing.loop hnum res num (k := k.setMem m)
    (by simp : ([] : List Nat).length + num = num) hstart
    ((hroom.kmalloc h hm₁).kmalloc hinv₁ hm)
  have hclean := hwrite.cleanup h (by omega)
  rw [length_nil] at hk hwrite hclean
  dsimp only at hend
  generalize bcWriteLoop dev block res num 0 [] [] (k.setMem m) = l at hend hk hwrite hclean
  obtain ⟨result, saved, chain', k₁⟩ := l
  obtain rfl : k₁ = k.setMem m' := hk
  rcases hend with ⟨rfl, rfl | rfl⟩ | ⟨-, rfl, rfl⟩
  · exact ⟨m, [], [], rfl, zero_le _, hstart⟩
  · exact ⟨_, [], [], rfl, zero_le _, hclean⟩
  · exact ⟨m', hs, saved, rfl, hle, hwrite⟩

end Exokernel
