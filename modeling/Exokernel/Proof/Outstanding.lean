import Exokernel.Proof.Writes

/-!
# The writes a header counts are the writes the driver has

`buf_writecnt` is eight bits, `sys_bc_insert64` takes the first state of a block from the user,
`bc_write_extent64` looks blocks up by half their numbers, and `malloc` may take the page of the
block that is being written. **Where none of this happens, a cached block's count is the number
of its writes with the driver**, in every state of every run, and `BC_GOING_OUT` says whether
there are any.

The invariant `Tracked` counts by pages: a request names the page it writes from, the page is
pinned while the request is pending, and a pinned page keeps its block. That a page's requests
name the block's device and sector makes it a statement about blocks.
-/
set_option autoImplicit false

namespace Exokernel

open Option List BitVec

/-! ## 1. The driver's list -/

/-- The pages that a request keeps pinned. -/
def Xfer.refs (x : Xfer) : List Nat := x.pages ++ x.buf.res.toList

/-- A write from page `p`. -/
def Xfer.writesFrom (p : Nat) (x : Xfer) : Bool := !x.buf.read && decide (x.buf.data = .page p)

/-- The request names the block of header `e`: its device, and its first sector. -/
def Xfer.isFor (k : Kernel) (e : BcEntry) (x : Xfer) : Bool :=
  decide (x.buf.dev = e.dev) &&
    decide (x.buf.blkno.toNat = e.blk64.toNat * 4096 / (k.disks e.dev.toNat).bsize.toNat)

variable {e : BcEntry} {k k' : Kernel} {n : Nat} {s : Io} {x : Xfer}

theorem Xfer.isFor_iff : x.isFor k e = true ↔
    x.buf.dev = e.dev ∧
      x.buf.blkno.toNat = e.blk64.toNat * 4096 / (k.disks e.dev.toNat).bsize.toNat := by
  simp [Xfer.isFor]

theorem Xfer.isFor_congr {e' : BcEntry} (x : Xfer) (hdisks : k'.disks = k.disks)
    (hdev : e'.dev = e.dev) (hblk : e'.blk64 = e.blk64) : x.isFor k' e' = x.isFor k e := by
  unfold Xfer.isFor
  simp only [hdisks, hdev, hblk]

theorem Xfer.writesFrom_read (h : x.buf.read = true) (p : Nat) :
    ¬x.writesFrom p = true := by
  simp [Xfer.writesFrom, h]

theorem Xfer.writesFrom_data {p : Nat} (hw : x.writesFrom p = true) :
    x.buf.read = false ∧ x.buf.data = .page p := by
  simpa [Xfer.writesFrom] using hw

namespace Io

/-- The pages that pending requests keep pinned. -/
def refs (s : Io) : List Nat := s.pending.flatMap Xfer.refs

/-- How many writes from page `p` are pending. -/
def writesFrom (s : Io) (p : Nat) : Nat := s.pending.countP (Xfer.writesFrom p)

/-- How many writes of the block of header `e` have been issued and have not completed. -/
def writesFor (s : Io) (e : BcEntry) : Nat :=
  s.pending.countP fun x => !x.buf.read && x.isFor s.kern e

end Io

/-- A disk whose sectors are no larger than a block. -/
def SmallSectors (k : Kernel) (dev : BitVec 32) : Prop :=
  0 < (k.disks dev.toNat).bsize.toNat ∧ (k.disks dev.toNat).bsize.toNat ≤ 4096

theorem SmallSectors.congr {dev dev' : BitVec 32} (h : SmallSectors k dev)
    (hdisks : k'.disks = k.disks) (hdev : dev' = dev) : SmallSectors k' dev' := by
  unfold SmallSectors
  rw [hdisks, hdev]
  exact h

/-- What the header's count and flag say. -/
def Counts (e : BcEntry) (n : Nat) : Prop :=
  e.writecnt.toNat = n ∧ (e.state &&& bcGoingOut ≠ 0#32 ↔ 0 < n)

/-- Requests, pins and headers agree. -/
structure Tracked (s : Io) : Prop where
  inv : CacheInv s.kern.mem
  ofCache : ∀ x ∈ s.pending, ∃ p, x.buf.data = .page p ∧ x.pages = [p]
  pins : ∀ p, s.refs.count p ≤ (s.kern.mem.pages p).pinned
  writes : ∀ x ∈ s.pending, ∀ p, x.writesFrom p = true →
    ∃ b, Cached s.kern.mem b ∧ (s.kern.mem.bufs b).ppn = p ∧
      x.isFor s.kern (s.kern.mem.bufs b) = true ∧ SmallSectors s.kern (s.kern.mem.bufs b).dev
  counts : ∀ b, Cached s.kern.mem b →
    Counts (s.kern.mem.bufs b) (s.writesFrom (s.kern.mem.bufs b).ppn)

theorem sector_inj {a b : Nat} (hn : 0 < n) (hle : n ≤ 4096) (h : a * 4096 / n = b * 4096 / n) :
    a = b := by
  have hstep : ∀ a b : Nat, a < b → a * 4096 / n < b * 4096 / n := by
    intro a b hab
    have hsucc : a * 4096 / n + 1 = (a * 4096 + n) / n := (Nat.add_div_right _ hn).symm
    have hmono : (a * 4096 + n) / n ≤ b * 4096 / n := Nat.div_le_div_right (by omega)
    omega
  rcases Nat.lt_trichotomy a b with hab | hab | hab
  · have := hstep a b hab
    omega
  · exact hab
  · have := hstep b a hab
    omega

namespace Tracked

variable {s : Io}

theorem pinned (h : Tracked s) {x : Xfer} (hx : x ∈ s.pending) {p : Nat}
    (hp : x.buf.data = .page p) : (s.kern.mem.pages p).pinned ≠ 0 := by
  obtain ⟨q, hq, hpages⟩ := h.ofCache x hx
  obtain rfl : q = p := BufData.page.inj (hq.symm.trans hp)
  have hcount : 0 < s.refs.count q := by
    rw [count_pos_iff]
    exact mem_flatMap.mpr ⟨x, hx, by simp [Xfer.refs, hpages]⟩
  have := h.pins q
  omega

/-- **What the counts mean**: a block's writes are the ones from its page. -/
theorem writesFor_eq (h : Tracked s) {b : Nat} (hb : Cached s.kern.mem b) :
    s.writesFor (s.kern.mem.bufs b) = s.writesFrom (s.kern.mem.bufs b).ppn := by
  unfold Io.writesFor Io.writesFrom
  refine countP_congr fun x hx => ?_
  constructor
  · intro hfor
    simp only [Bool.and_eq_true, Bool.not_eq_true'] at hfor
    obtain ⟨q, hq, -⟩ := h.ofCache x hx
    have hw : x.writesFrom q = true := by simp [Xfer.writesFrom, hfor.1, hq]
    obtain ⟨c, hc, hppn, hcfor, hsmall⟩ := h.writes x hx q hw
    have hbfor := hfor.2
    rw [Xfer.isFor_iff] at hbfor hcfor
    have hdev : (s.kern.mem.bufs b).dev = (s.kern.mem.bufs c).dev := hbfor.1.symm.trans hcfor.1
    have hblk : (s.kern.mem.bufs b).blk64 = (s.kern.mem.bufs c).blk64 := by
      apply eq_of_toNat_eq
      refine sector_inj hsmall.1 hsmall.2 ?_
      rw [← hcfor.2, hbfor.2, hdev]
    obtain rfl := h.inv.keys b c hb hc hdev hblk
    rw [hppn]
    exact hw
  · intro hw
    obtain ⟨hread, -⟩ := Xfer.writesFrom_data hw
    obtain ⟨c, hc, hppn, hcfor, -⟩ := h.writes x hx _ hw
    obtain ⟨hlt, hbuf⟩ := h.inv.bufOf hb
    obtain ⟨-, hcbuf⟩ := h.inv.bufOf hc
    rw [hppn, hbuf] at hcbuf
    cases hcbuf
    simp [hread, hcfor]

/-- A block whose page nobody holds, or whose page held none, has no writes pending. -/
theorem writesFrom_idle (h : Tracked s) {p : Nat}
    (hp : (s.kern.mem.pages p).pinned = 0 ∨ (s.kern.mem.pages p).buf = none) :
    s.writesFrom p = 0 := by
  rw [Io.writesFrom, countP_eq_zero]
  intro x hx hw
  rcases hp with hp | hp
  · exact h.pinned hx (Xfer.writesFrom_data hw).2 hp
  obtain ⟨c, hc, hppn, -⟩ := h.writes x hx p hw
  obtain ⟨-, hbuf⟩ := h.inv.bufOf hc
  rw [hppn, hp] at hbuf
  cases hbuf

/-- **A calm step that issues no writes.** -/
theorem calm (h : Tracked s) {k' : Kernel} {xs : List Xfer} (hinv : CacheInv k'.mem)
    (hcalm : Calm s.kern.mem k'.mem) (hdisks : k'.disks = s.kern.disks)
    (hxs : ∀ x ∈ xs, x.buf.read = true ∧ ∃ p, x.buf.data = .page p ∧ x.pages = [p])
    (hpins : ∀ p, (s.kern.mem.pages p).pinned + (xs.flatMap Xfer.refs).count p ≤
      (k'.mem.pages p).pinned) :
    Tracked ((s.setKern k').strategy xs) := by
  have hnone : ∀ p, xs.countP (Xfer.writesFrom p) = 0 := by
    intro p
    rw [countP_eq_zero]
    exact fun x hx => Xfer.writesFrom_read (hxs x hx).1 p
  have hfrom : ∀ p, ((s.setKern k').strategy xs).writesFrom p = s.writesFrom p := by
    intro p
    simp [Io.writesFrom, Io.strategy, Io.setKern, hnone]
  refine ⟨hinv, fun x hx => ?_, fun p => ?_, fun x hx p hw => ?_, fun c hc => ?_⟩
  · rcases mem_append.mp hx with hx | hx
    · exact h.ofCache x hx
    · exact (hxs x hx).2
  · have hs := h.pins p
    have hle := hpins p
    simp only [Io.refs, Io.strategy, Io.setKern, flatMap_append, count_append] at hs ⊢
    omega
  · rcases mem_append.mp hx with hx | hx
    · obtain ⟨b, hb, hppn, hfor, hsmall⟩ := h.writes x hx p hw
      have hpin := h.pinned hx (Xfer.writesFrom_data hw).2
      obtain ⟨hb', hs⟩ := hcalm.stays h.inv hinv hb (hppn ▸ hpin)
      refine ⟨b, hb', hs.ppn.trans hppn, (x.isFor_congr hdisks hs.dev hs.blk64).trans hfor, ?_⟩
      exact hsmall.congr hdisks hs.dev
    · exact absurd hw (Xfer.writesFrom_read (hxs x hx).1 p)
  · rw [hfrom]
    rcases hcalm.cached c hc with ⟨hc', hs⟩ | hq
    · have hcount := h.counts c hc'
      unfold Counts at hcount ⊢
      dsimp only [Io.strategy, Io.setKern]
      rw [hs.writecnt, hs.state, hs.ppn]
      exact hcount
    · have hzero := h.writesFrom_idle hq.idle
      dsimp only [Io.strategy, Io.setKern]
      rw [hzero]
      refine ⟨by rw [hq.writecnt]; rfl, fun hx => absurd hq.state hx, fun hx => ?_⟩
      exact absurd hx (lt_irrefl 0)

/-! ### Writes are issued -/

theorem chain_refs (chain : List DiskBuf) (read : Bool) (dev envid : BitVec 32) :
    (chain.map (DiskBuf.xfer read dev envid)).flatMap Xfer.refs = chainRefs chain := by
  rw [flatMap_map]
  rfl

/-- Among the blocks of the extent, one is on the page of header `c`, or none. -/
theorem chain_count {m₀ m : Mem} {dev envid : BitVec 32} {block : BitVec 64} {bsize : BitVec 32}
    {hs : List Nat} {saved : List BufSave} {chain : List DiskBuf}
    (h : Writing m₀ m dev block bsize hs saved chain) (hlen : hs.length < 2 ^ 64) {c : Nat}
    (hc : Cached m c) :
    (chain.map (DiskBuf.xfer false dev envid)).countP (Xfer.writesFrom (m.bufs c).ppn) =
      if c ∈ hs then 1 else 0 := by
  have hpage : (chain.map (DiskBuf.xfer false dev envid)).countP (Xfer.writesFrom (m.bufs c).ppn) =
      (chain.map (·.page)).count (m.bufs c).ppn := by
    rw [countP_map, List.count, countP_map]
    refine countP_congr fun d _ => ?_
    simp [DiskBuf.xfer, Xfer.writesFrom]
  have hinj : ∀ b ∈ hs, ((m₀.bufs b).ppn == (m.bufs c).ppn) = true ↔ (b == c) = true := by
    intro b hb
    obtain ⟨hb', -⟩ := h.pinned hb
    have hppn := (h.bumped.cached b hb').2.ppn
    simp only [beq_iff_eq]
    constructor
    · intro he
      obtain ⟨-, hbbuf⟩ := h.inv.bufOf hb'
      obtain ⟨-, hcbuf⟩ := h.inv.bufOf hc
      rw [hppn, he, hcbuf] at hbbuf
      exact (some.inj hbbuf).symm
    · rintro rfl
      exact hppn.symm
  rw [hpage, h.pages, List.count, countP_map]
  have hcount : hs.countP ((· == (m.bufs c).ppn) ∘ fun b => (m₀.bufs b).ppn) = hs.count c :=
    countP_congr fun b hb => hinj b hb
  rw [hcount]
  split
  · rename_i hmem
    exact count_eq_one_of_mem (h.nodup hlen) hmem
  · rename_i hmem
    exact count_eq_zero.mpr hmem

theorem sector_toNat {block : BitVec 64} (bsize : BitVec 32) {j num : Nat}
    (hnum : block.toNat + num ≤ 2 ^ 32) (hj : j < num) :
    ((block + BitVec.ofNat 64 j) * 4096 / bsize.setWidth 64).toNat =
      (block + BitVec.ofNat 64 j).toNat * 4096 / bsize.toNat := by
  have h₁ : (block + BitVec.ofNat 64 j).toNat = block.toNat + j := by
    rw [toNat_add, toNat_ofNat, Nat.mod_eq_of_lt (by omega : j < 2 ^ 64),
      Nat.mod_eq_of_lt (by omega)]
  have h₂ : (4096 : BitVec 64).toNat = 4096 := rfl
  have h₃ : (bsize.setWidth 64).toNat = bsize.toNat := by
    rw [toNat_setWidth, Nat.mod_eq_of_lt]
    have := bsize.isLt
    omega
  rw [toNat_udiv, toNat_mul, h₁, h₂, h₃, Nat.mod_eq_of_lt (by omega)]

/-- **`bc_write_extent64`** keeps count: no header has 255 writes outstanding. -/
theorem write (h : Tracked s) {m : Mem} {dev envid : BitVec 32} {block : BitVec 64} {num : Nat}
    {hs : List Nat} {saved : List BufSave} {chain : List DiskBuf}
    (hnum : block.toNat + num ≤ 2 ^ 32) (hsmall : SmallSectors s.kern dev)
    (hcnt : ∀ j < num, ∀ b, bcLookup64 s.kern.mem dev (block + BitVec.ofNat 64 j) = some b →
      (s.kern.mem.bufs b).writecnt ≠ 255#8)
    (hle : hs.length ≤ num)
    (hw : Writing s.kern.mem m dev block (s.kern.disks dev.toNat).bsize hs saved chain) :
    Tracked ((s.setKern (s.kern.setMem m)).strategy (chain.map (DiskBuf.xfer false dev envid))) := by
  have hfrom : ∀ p, ((s.setKern (s.kern.setMem m)).strategy
      (chain.map (DiskBuf.xfer false dev envid))).writesFrom p =
      s.writesFrom p + (chain.map (DiskBuf.xfer false dev envid)).countP (Xfer.writesFrom p) :=
    fun p => countP_append
  refine ⟨hw.inv, fun x hx => ?_, fun p => ?_, fun x hx p hp => ?_, fun c hc => ?_⟩
  · rcases mem_append.mp hx with hx | hx
    · exact h.ofCache x hx
    · obtain ⟨d, -, rfl⟩ := mem_map.mp hx
      exact ⟨d.page, rfl, rfl⟩
  · have hp := h.pins p
    have hpin := hw.pins p
    simp only [Io.refs, Io.strategy, Io.setKern, Kernel.setMem_mem, flatMap_append, chain_refs,
      count_append] at hp ⊢
    omega
  · rcases mem_append.mp hx with hx | hx
    · obtain ⟨b, hb, hppn, hfor, hsm⟩ := h.writes x hx p hp
      have hpin := h.pinned hx (Xfer.writesFrom_data hp).2
      obtain ⟨hb', hbump⟩ := hw.bumped.stays h.inv hw.inv hb (hppn ▸ hpin)
      exact ⟨b, hb', hbump.ppn.trans hppn, (x.isFor_congr rfl hbump.dev hbump.blk64).trans hfor,
        hsm.congr rfl hbump.dev⟩
    -- the request is for the block at its place in the chain
    obtain ⟨d, hd, rfl⟩ := mem_map.mp hx
    obtain ⟨j, hj, hdj⟩ := mem_iff_getElem.mp hd
    have hlenc : chain.length = hs.length := by
      have := congrArg List.length hw.pages
      simpa using this
    have hj' : j < hs.length := by omega
    have hfor := hw.there j hs[j] (List.getElem?_eq_getElem hj')
    obtain ⟨-, hbump⟩ := hw.bumped.cached hs[j] hfor.1
    have hpage : d.page = (s.kern.mem.bufs hs[j]).ppn := by
      have := congrArg (·[j]?) hw.pages
      simpa [hj, hj', hdj] using this
    have hblk : d.blkno = (block + BitVec.ofNat 64 j) * 4096 /
        (s.kern.disks dev.toNat).bsize.setWidth 64 := by
      have := congrArg (·[j]?) hw.blknos
      simpa [hj, hj', hdj] using this
    have hdp : d.page = p := BufData.page.inj (Xfer.writesFrom_data hp).2
    refine ⟨hs[j], hfor.1, ?_, ?_, hsmall.congr rfl hfor.2.1⟩
    · exact (hbump.ppn.trans hpage.symm).trans hdp
    have hsec := sector_toNat (s.kern.disks dev.toNat).bsize hnum (by omega : j < num)
    refine Xfer.isFor_iff.mpr ⟨hfor.2.1.symm, ?_⟩
    show d.blkno.toNat = (m.bufs hs[j]).blk64.toNat * 4096 /
      (s.kern.disks (m.bufs hs[j]).dev.toNat).bsize.toNat
    rw [hfor.2.1, hfor.2.2, hblk, hsec]
  · obtain ⟨hc₀, hbump⟩ := hw.bumped.cached c hc
    have hold := h.counts c hc₀
    rw [hfrom]
    show Counts (m.bufs c) (s.writesFrom (m.bufs c).ppn +
      (chain.map (DiskBuf.xfer false dev envid)).countP (Xfer.writesFrom (m.bufs c).ppn))
    rw [chain_count hw (by omega) hc, hbump.ppn]
    by_cases hmem : c ∈ hs
    · obtain ⟨j, hj, hjc⟩ := mem_iff_getElem.mp hmem
      have hfor := hw.there j c (by rw [List.getElem?_eq_getElem hj, hjc])
      have hl := h.inv.keys.lookup h.inv.page.cache hc₀
      rw [← hbump.dev, ← hbump.blk64, hfor.2.1, hfor.2.2] at hl
      have hne := hcnt j (by omega) c hl
      have hwc := hbump.writecnt
      have hst := hbump.state
      rw [if_pos hmem] at hwc hst ⊢
      refine ⟨?_, ?_⟩
      · have hlt : (s.kern.mem.bufs c).writecnt.toNat < 255 := by
          have hb := (s.kern.mem.bufs c).writecnt.isLt
          have hx : (s.kern.mem.bufs c).writecnt.toNat ≠ 255 := fun he =>
            hne (eq_of_toNat_eq he)
          omega
        have hone : (1 : BitVec 8).toNat = 1 := rfl
        rw [hwc, toNat_add, hone, hold.1]
        rw [hold.1] at hlt
        omega
      · rw [hst, and_or_distrib_right]
        refine ⟨fun _ => by omega, fun _ hz => ?_⟩
        have := (or_eq_zero_iff.mp hz).2
        exact absurd this (by decide)
    · have hwc := hbump.writecnt
      have hst := hbump.state
      rw [if_neg hmem] at hwc hst ⊢
      rw [Counts, hwc, hst]
      exact hold

end Tracked

/-! ### A request completes -/

theorem bufFree_page {bp : Buf} {p : Nat} (hp : bp.data = .page p)
    (heq : bufFree k bp = some k') : k' = k.setMem ((p :: bp.res.toList).foldl ppageUnpin k.mem) := by
  unfold bufFree at heq
  rw [hp] at heq
  cases heq
  cases bp.res with
  | none => rfl
  | some q => rfl

/-- What `bc_diskreq_done64` makes of a header. -/
def diskreqDone (write : Bool) (e : BcEntry) : BcEntry :=
  if e.state &&& (bcComingIn ||| bcGoingOut) = 0 then e
  else if !write then
    if e.state &&& bcComingIn = 0 then e else { e with state := e.state &&& ~~~bcComingIn }
  else if e.state &&& bcGoingOut = 0 ∧ e.writecnt = 0 then e
  else
    { e with
      writecnt := e.writecnt - 1
      state := if e.writecnt - 1 = 0 then e.state &&& ~~~bcGoingOut else e.state }

/-- The memory after a request on page `p` is done. -/
def Mem.done (m : Mem) (p : Nat) (write : Bool) : Mem :=
  match (m.pages p).buf with
  | none => m
  | some b => m.modBuf b (diskreqDone write)

theorem modBuf_same (m : Mem) (b : Nat) : (m.modBuf b fun _ => m.bufs b) = m := by
  rw [Mem.modBuf, Function.update_eq_self]

theorem bcDiskreqDone64_eq (s : Io) (p : Nat) (write : Bool) (envid : BitVec 32) :
    (bcDiskreqDone64 s p write envid).pending = s.pending ∧
      (bcDiskreqDone64 s p write envid).kern = s.kern.setMem (s.kern.mem.done p write) := by
  unfold bcDiskreqDone64 Mem.done
  dsimp only
  cases (s.kern.mem.pages p).buf with
  | none => exact ⟨rfl, rfl⟩
  | some b =>
    -- the header is looked at once, and the tests are the same
    change _ ∧ _ = s.kern.setMem (s.kern.mem.modBuf b fun _ => diskreqDone write (s.kern.mem.bufs b))
    unfold diskreqDone
    dsimp only
    split
    · rw [modBuf_same]
      exact ⟨rfl, rfl⟩
    split
    · split
      · rw [modBuf_same]
        exact ⟨rfl, rfl⟩
      · exact ⟨rfl, rfl⟩
    split
    · rw [modBuf_same]
      exact ⟨rfl, rfl⟩
    · exact ⟨rfl, rfl⟩

theorem diskreqDone_keeps (write : Bool) (e : BcEntry) :
    (diskreqDone write e).dev = e.dev ∧ (diskreqDone write e).blk64 = e.blk64 ∧
      (diskreqDone write e).ppn = e.ppn ∧ (diskreqDone write e).dirty = e.dirty ∧
      (diskreqDone write e).state &&& bcValid = e.state &&& bcValid := by
  unfold diskreqDone
  split
  · exact ⟨rfl, rfl, rfl, rfl, rfl⟩
  split
  · split
    · exact ⟨rfl, rfl, rfl, rfl, rfl⟩
    · refine ⟨rfl, rfl, rfl, rfl, ?_⟩
      rw [BitVec.and_assoc, show ~~~bcComingIn &&& bcValid = bcValid from by decide]
  · split
    · exact ⟨rfl, rfl, rfl, rfl, rfl⟩
    refine ⟨rfl, rfl, rfl, rfl, ?_⟩
    dsimp only
    split
    · rw [BitVec.and_assoc, show ~~~bcGoingOut &&& bcValid = bcValid from by decide]
    · rfl

theorem Counts.read (h : Counts e n) :
    Counts (diskreqDone false e) n := by
  unfold diskreqDone
  split
  · exact h
  rw [if_pos (by decide)]
  split
  · exact h
  refine ⟨h.1, ?_⟩
  dsimp only
  rw [BitVec.and_assoc, show ~~~bcComingIn &&& bcGoingOut = bcGoingOut from by decide]
  exact h.2

theorem Mem.done_fixed (m : Mem) (p : Nat) (write : Bool) :
    (m.done p write).pages = m.pages ∧ (m.done p write).bcQs = m.bcQs ∧
      (m.done p write).nppage = m.nppage := by
  unfold Mem.done
  split
  · exact ⟨rfl, rfl, rfl⟩
  · exact ⟨rfl, rfl, rfl⟩

theorem Mem.done_bufs (m : Mem) (p : Nat) (write : Bool) (c : Nat) :
    (m.done p write).bufs c =
      if (m.pages p).buf = some c then diskreqDone write (m.bufs c) else m.bufs c := by
  unfold Mem.done
  cases hb : (m.pages p).buf with
  | none => simp
  | some b =>
    by_cases hc : c = b
    · subst hc
      simp [Mem.modBuf]
    · have hne : ¬b = c := fun h => hc h.symm
      simp [Mem.modBuf, hc, hne]

theorem Mem.done_keeps (m : Mem) (p : Nat) (write : Bool) (c : Nat) :
    ((m.done p write).bufs c).dev = (m.bufs c).dev ∧
      ((m.done p write).bufs c).blk64 = (m.bufs c).blk64 ∧
      ((m.done p write).bufs c).ppn = (m.bufs c).ppn := by
  rw [Mem.done_bufs]
  obtain ⟨hdev, hblk, hppn, -⟩ := diskreqDone_keeps write (m.bufs c)
  split
  · exact ⟨hdev, hblk, hppn⟩
  · exact ⟨rfl, rfl, rfl⟩

theorem CacheInv.done {m : Mem} (h : CacheInv m) (p : Nat) (write : Bool) :
    CacheInv (m.done p write) := by
  unfold Mem.done
  split
  · exact h
  rename_i b _
  obtain ⟨hdev, hblk, hppn, hdirty, hv⟩ := diskreqDone_keeps write (m.bufs b)
  exact h.modBuf b hdev hblk hppn hdirty fun hx => by rw [hv]; exact hx

theorem Counts.wrote (h : Counts e n) (hn : 0 < n) :
    Counts (diskreqDone true e) (n - 1) := by
  have hgoing := h.2.mpr hn
  have hboth : ¬e.state &&& (bcComingIn ||| bcGoingOut) = 0 := by
    rw [and_or_distrib_left]
    exact fun hz => hgoing (or_eq_zero_iff.mp hz).2
  have hcnt : (e.writecnt - 1).toNat = n - 1 := by
    have hone : (1 : BitVec 8).toNat = 1 := rfl
    have hlt := e.writecnt.isLt
    rw [toNat_sub, hone, h.1]
    rw [h.1] at hlt
    omega
  unfold diskreqDone
  rw [if_neg hboth, if_neg (by decide), if_neg fun hz => hgoing hz.1]
  refine ⟨hcnt, ?_⟩
  dsimp only
  split
  · rename_i hz
    rw [BitVec.and_assoc, show ~~~bcGoingOut &&& bcGoingOut = 0#32 from by decide, BitVec.and_zero]
    rw [hz] at hcnt
    refine ⟨fun hx => absurd rfl hx, fun hx => ?_⟩
    rw [← hcnt] at hx
    exact absurd hx (by decide)
  · rename_i hz
    refine ⟨fun _ => ?_, fun _ => hgoing⟩
    rw [← hcnt]
    refine Nat.pos_of_ne_zero fun h0 => hz (eq_of_toNat_eq h0)

/-- **A request completes.** The counts of its block go down with the list. -/
theorem Tracked.complete (h : Tracked s) {s' : Io}
    (heq : s.complete n = some s') : Tracked s' := by
  unfold Io.complete at heq
  obtain ⟨x, hx, heq⟩ := bind_eq_some_iff.mp heq
  obtain ⟨hn, hxn⟩ := List.getElem?_eq_some_iff.mp hx
  have hmem : x ∈ s.pending := hxn ▸ getElem_mem hn
  obtain ⟨p, hp, hpages⟩ := h.ofCache x hmem
  have hperm : s.pending.Perm (x :: s.pending.eraseIdx n) := by
    rw [← hxn]
    exact (getElem_cons_eraseIdx_perm hn).symm
  rw [hp] at heq
  dsimp only at heq
  obtain ⟨k', hfree, rfl⟩ := map_eq_some_iff.mp heq
  have hk' := bufFree_page hp hfree
  obtain ⟨hpend, hkern⟩ := bcDiskreqDone64_eq { s with pending := s.pending.eraseIdx n } p
    (!x.buf.read) x.buf.envid
  generalize bcDiskreqDone64 { s with pending := s.pending.eraseIdx n } p (!x.buf.read)
    x.buf.envid = d at hpend hkern hk' ⊢
  rw [hkern] at hk'
  dsimp only [Kernel.setMem_mem] at hk'
  -- the pages of the request are pinned, so unpinning them takes off what it put on
  have hrefs : ∀ q, s.refs.count q = x.refs.count q +
      ((s.pending.eraseIdx n).flatMap Xfer.refs).count q := by
    intro q
    rw [Io.refs, (hperm.flatMap_right Xfer.refs).count_eq, flatMap_cons, count_append]
  have hxrefs : x.refs = p :: x.buf.res.toList := by simp [Xfer.refs, hpages]
  have hinv := (h.inv.done p (!x.buf.read)).unpinAll (p :: x.buf.res.toList)
  obtain ⟨hdpages, hdqs, hdn⟩ := s.kern.mem.done_fixed p (!x.buf.read)
  have hunpin := foldl_unpin (p :: x.buf.res.toList) (m := s.kern.mem.done p (!x.buf.read))
    fun q => by
      have hle := h.pins q
      rw [hrefs q, hxrefs] at hle
      rw [hdpages]
      omega
  have hcached : ∀ c, Cached k'.mem c ↔ Cached s.kern.mem c := by
    intro c
    obtain ⟨hdev, hblk, -⟩ := s.kern.mem.done_keeps p (!x.buf.read) c
    rw [hk', Kernel.setMem_mem, hunpin, Cached, Cached]
    dsimp only
    rw [hdev, hblk, hdqs]
  have hbufs : k'.mem.bufs = (s.kern.mem.done p (!x.buf.read)).bufs := by
    rw [hk', Kernel.setMem_mem, hunpin]
  have hfrom : ∀ q, s.writesFrom q = (if x.writesFrom q = true then 1 else 0) +
      (s.pending.eraseIdx n).countP (Xfer.writesFrom q) := by
    intro q
    rw [Io.writesFrom, hperm.countP_eq, countP_cons]
    omega
  have hmem' : ∀ y ∈ s.pending.eraseIdx n, y ∈ s.pending := fun y hy => mem_of_mem_eraseIdx hy
  have hdisks : k'.disks = s.kern.disks := by
    rw [hk']
    rfl
  have hpend' : (d.setKern k').pending = s.pending.eraseIdx n := hpend
  refine ⟨?_, fun y hy => ?_, fun q => ?_, fun y hy q hw => ?_, fun c hc => ?_⟩
  · show CacheInv k'.mem
    rw [hk']
    exact hinv
  · rw [hpend'] at hy
    exact h.ofCache y (hmem' y hy)
  · rw [Io.refs, hpend']
    show _ ≤ (k'.mem.pages q).pinned
    have hle := h.pins q
    rw [hrefs q, hxrefs] at hle
    rw [hk', Kernel.setMem_mem, hunpin]
    dsimp only
    rw [hdpages]
    omega
  · rw [hpend'] at hy
    obtain ⟨b, hb, hppn, hfor, hsmall⟩ := h.writes y (hmem' y hy) q hw
    obtain ⟨hdev, hblk, hppn'⟩ := s.kern.mem.done_keeps p (!x.buf.read) b
    rw [← hbufs] at hdev hblk hppn'
    exact ⟨b, (hcached b).mpr hb, hppn'.trans hppn, (y.isFor_congr hdisks hdev hblk).trans hfor,
      hsmall.congr hdisks hdev⟩
  · have hc' : Cached s.kern.mem c := (hcached c).mp hc
    have hold := h.counts c hc'
    obtain ⟨hlt, hcbuf⟩ := h.inv.bufOf hc'
    show Counts (k'.mem.bufs c) (d.pending.countP (Xfer.writesFrom (k'.mem.bufs c).ppn))
    rw [hpend, hbufs, (s.kern.mem.done_keeps p (!x.buf.read) c).2.2, Mem.done_bufs]
    have hcnt := hfrom (s.kern.mem.bufs c).ppn
    by_cases hbuf : (s.kern.mem.pages p).buf = some c
    · rw [if_pos hbuf]
      cases hread : x.buf.read with
      | true =>
        rw [if_neg (Xfer.writesFrom_read hread _), Nat.zero_add] at hcnt
        rw [← hcnt]
        exact hold.read
      | false =>
        -- the page of the request is the page of the block
        have hw : x.writesFrom p = true := by simp [Xfer.writesFrom, hread, hp]
        obtain ⟨b, hb, hppn, -⟩ := h.writes x hmem p hw
        have hbbuf := (h.inv.bufOf hb).2
        rw [hppn, hbuf] at hbbuf
        cases hbbuf
        rw [hppn, if_pos hw] at hcnt
        rw [hppn, hcnt] at hold
        rw [hppn]
        have hless := hold.wrote (by omega)
        rwa [Nat.add_sub_cancel_left] at hless
    · rw [if_neg hbuf]
      have hnot : ¬x.writesFrom (s.kern.mem.bufs c).ppn = true := by
        intro hw
        obtain rfl : p = (s.kern.mem.bufs c).ppn :=
          BufData.page.inj (hp.symm.trans (Xfer.writesFrom_data hw).2)
        exact hbuf hcbuf
      rw [if_neg hnot, Nat.zero_add] at hcnt
      rw [← hcnt]
      exact hold

/-! ## 2. Every run -/

/-- The calls of the cache, `bc_write_extent64` by itself and as a system call, and the driver's
    interrupts. -/
inductive IoOp where
  | cache (op : CacheOp)
  | write (cur : Fin nenv) (dev : BitVec 32) (block : BitVec 64) (num : BitVec 32)
      (res : Option Nat)
  | writeDirtyBufs (cur : Fin nenv) (dev : BitVec 32) (block : BitVec 64) (num resptr : BitVec 32)
  | complete (n : Nat)

/-- What a call of the cache hands to the driver. -/
def CacheOp.issued (k : Kernel) : CacheOp → List Xfer
  | readAndInsert cur dev blk pagecount resptr =>
    (readAndInsertChain k cur dev blk pagecount resptr).map
      (DiskBuf.xfer true dev (k.envs cur).id)
  | _ => []

/-- The call of the cache neither hides a block nor enters one that is said to be going out. -/
def CacheOp.Tame (k : Kernel) : CacheOp → Prop
  | insert _ _ _ _ state _ ppn _ => (k.mem.pages ppn.toNat).buf = none ∧
    (bcValid ||| state.setWidth 32) &&& bcGoingOut = 0#32
  | micropartInit _ part _ => (k.micropart part.toNat).loaded = true ∨
    bcLookup64 k.mem part micropartMetadataPage = none
  | _ => True

/-- The extent lies below block `2^32` of a disk with small sectors, none of its blocks has 255
    writes outstanding, and `malloc` leaves them in the cache. -/
structure Countable (k : Kernel) (dev : BitVec 32) (block : BitVec 64) (num : Nat) : Prop where
  low : block.toNat + num ≤ 2 ^ 32
  sectors : SmallSectors k dev
  count : ∀ j < num, ∀ b, bcLookup64 k.mem dev (block + BitVec.ofNat 64 j) = some b →
    (k.mem.bufs b).writecnt ≠ 255#8
  room : Room k.mem dev block 0 num (num + 2)

namespace IoOp

def exec (s : Io) : IoOp → Option Io
  | cache op => (op.exec s.kern).map fun k => (s.setKern k).strategy (op.issued s.kern)
  | write cur dev block num res => some (s.writeExtent cur dev block num res).2
  | writeDirtyBufs cur dev block num resptr =>
    some (sysBcWriteDirtyBufs64 s cur dev block num resptr).2
  | complete n => s.complete n

def Contract (s : Io) : IoOp → Prop
  | cache op => op.Contract s.kern
  | _ => True

def Counted (s : Io) : IoOp → Prop
  | cache op => op.Tame s.kern
  | write _ dev block num _ | writeDirtyBufs _ dev block num _ =>
    Countable s.kern dev block num.toNat
  | complete _ => True

end IoOp

theorem Kernel.setMem_disks (k : Kernel) (m : Mem) : (k.setMem m).disks = k.disks := rfl

theorem Kernel.setPte_disks (k : Kernel) (d : Fin nenv) (va pte : BitVec 32) :
    (k.setPte d va pte).disks = k.disks := by
  unfold Kernel.setPte
  repeat' split
  all_goals rfl

theorem ppageRemove_disks (k : Kernel) (d : Fin nenv) (envid va : BitVec 32) :
    (ppageRemove k d envid va).disks = k.disks := by
  unfold ppageRemove
  cases k.pte d va with
  | none => rfl
  | some pte =>
    dsimp only
    split
    · split
      · rfl
      rw [Kernel.setPte_disks]
      split
      · rfl
      · rfl
    · rw [Kernel.setPte_disks]

/-- **A tame call of the cache is calm**, and pins what it issues. -/
theorem CacheInv.tame {op : CacheOp} (h : CacheInv k.mem) (hc : op.Contract k)
    (ht : op.Tame k) (heq : op.exec k = some k') :
    CacheInv k'.mem ∧ Calm k.mem k'.mem ∧ k'.disks = k.disks ∧
      ∀ p, (k.mem.pages p).pinned + ((op.issued k).flatMap Xfer.refs).count p ≤
        (k'.mem.pages p).pinned := by
  have hstep : ∀ {k' : Kernel} {ps : List Nat}, CacheStep k.mem k'.mem ps → op.issued k = [] →
      k'.disks = k.disks → CacheInv k'.mem ∧ Calm k.mem k'.mem ∧ k'.disks = k.disks ∧
        ∀ p, (k.mem.pages p).pinned + ((op.issued k).flatMap Xfer.refs).count p ≤
          (k'.mem.pages p).pinned := by
    intro k' ps hs hnil hdisks
    refine ⟨hs.inv, hs.calm, hdisks, fun p => ?_⟩
    rw [hnil, hs.pins p]
    simp
  cases op with
  | insert fuel cur xn blk state kcap ppn ps =>
    obtain ⟨⟨r, k₁⟩, hk, rfl⟩ := map_eq_some_iff.mp heq
    obtain ⟨hinv, hpins, -, hcalm⟩ := sysBcInsert64_step h ht.1 hk
    refine ⟨hinv, hcalm ht.2, ?_, fun p => ?_⟩
    · obtain ⟨ok, m, -, hcase⟩ := sysBcInsert64_cases hk
      rcases hcase with rfl | rfl | ⟨-, -, -, -, m', -, -, -, ⟨-, rfl⟩ | ⟨-, rfl⟩⟩
      · rfl
      · rfl
      · rfl
      · rfl
    · rw [hpins p]
      simp [CacheOp.issued]
  | readAndInsert cur dev blk pagecount resptr =>
    cases heq
    generalize hs : sysBcReadAndInsert k cur dev blk pagecount resptr = s
    obtain ⟨r, k₁⟩ := s
    obtain ⟨m, rfl, hinv, hcalm, hpins, -⟩ := sysBcReadAndInsert_spec h hs
    refine ⟨hinv, hcalm, rfl, fun p => ?_⟩
    rw [CacheOp.issued, Tracked.chain_refs]
    exact (hpins p).ge
  | micropartInit cur part kcap =>
    obtain ⟨⟨r, k₁⟩, hk, rfl⟩ := map_eq_some_iff.mp heq
    obtain ⟨hdisks, ps, hs⟩ := sysMicropartInit_step h ht hk
    exact hstep hs rfl hdisks
  | flush d blk num =>
    cases heq
    refine hstep (sysBcFlush64_step h d blk num) rfl ?_
    unfold sysBcFlush64
    repeat' split
    all_goals exact Kernel.setMem_disks _ _
  | alloc type userreq =>
    cases heq
    obtain ⟨hinv, htakes, -⟩ := ppageAlloc_inv h.page hc rfl
    exact hstep (htakes.step h hinv) rfl rfl
  | allocN type n =>
    cases heq
    obtain ⟨hinv, htakes⟩ := ppageAllocN_inv h.page hc n
    exact hstep (htakes.step h hinv) rfl rfl
  | reuse p =>
    cases heq
    exact hstep (h.reuseStep hc) rfl rfl
  | free p =>
    cases heq
    exact hstep (h.freeStep hc.1 hc.2.1 hc.2.2) rfl rfl
  | unmap d envid va =>
    cases heq
    exact hstep (ppageRemove_step envid h hc) rfl (ppageRemove_disks k d envid va)

theorem CacheOp.issued_reads {op : CacheOp} : ∀ x ∈ op.issued k,
    x.buf.read = true ∧ ∃ p, x.buf.data = .page p ∧ x.pages = [p] := by
  intro x hx
  cases op with
  | readAndInsert cur dev blk pagecount resptr =>
    obtain ⟨d, -, rfl⟩ := mem_map.mp hx
    exact ⟨rfl, d.page, rfl, rfl⟩
  | _ => cases hx

theorem Tracked.writeExtent (h : Tracked s) (cur : Fin nenv) {dev : BitVec 32}
    {block : BitVec 64} {num : BitVec 32} (res : Option Nat)
    (hc : Countable s.kern dev block num.toNat) :
    Tracked (s.writeExtent cur dev block num res).2 := by
  generalize hw : bcWriteExtent64 s.kern dev block num.toNat res = w
  obtain ⟨r, chain, k'⟩ := w
  obtain ⟨m, hs, saved, rfl, hle, hwrite⟩ := bcWriteExtent64_spec h.inv hc.low hc.room hw
  simp only [Io.writeExtent, hw]
  exact h.write hc.low hc.sectors hc.count hle hwrite

/-- **One call.** -/
theorem Tracked.exec {s' : Io} {op : IoOp} (h : Tracked s) (hc : op.Contract s)
    (hok : op.Counted s) (heq : op.exec s = some s') : Tracked s' := by
  cases op with
  | cache op =>
    obtain ⟨k', hk, rfl⟩ := map_eq_some_iff.mp heq
    obtain ⟨hinv, hcalm, hdisks, hpins⟩ := h.inv.tame hc hok hk
    exact h.calm hinv hcalm hdisks CacheOp.issued_reads hpins
  | write cur dev block num res =>
    cases heq
    exact h.writeExtent cur res hok
  | writeDirtyBufs cur dev block num resptr =>
    cases heq
    unfold sysBcWriteDirtyBufs64
    split
    · exact h
    · exact h.writeExtent cur _ hok
  | complete n => exact h.complete heq

/-- As it comes up: nothing is pending and nothing is going out. -/
structure Io.Idle (s : Io) : Prop where
  inv : CacheInv s.kern.mem
  pending : s.pending = []
  quiet : ∀ b, Cached s.kern.mem b →
    (s.kern.mem.bufs b).writecnt = 0 ∧ (s.kern.mem.bufs b).state &&& bcGoingOut = 0#32

theorem Io.Idle.tracked (h : s.Idle) : Tracked s := by
  have hfrom : ∀ p, s.writesFrom p = 0 := fun p => by simp [Io.writesFrom, h.pending]
  refine ⟨h.inv, ?_, fun p => by simp [Io.refs, h.pending], ?_, fun b hb => ?_⟩
  · rw [h.pending]
    exact nofun
  · rw [h.pending]
    exact nofun
  obtain ⟨hw, hs⟩ := h.quiet b hb
  rw [hfrom]
  exact ⟨by rw [hw]; rfl, fun hx => absurd hs hx, fun hx => absurd hx (lt_irrefl 0)⟩

/-- A cached block is going out iff there are writes of it, and its count is their number. -/
def WritesCounted (s : Io) : Prop :=
  ∀ b, Cached s.kern.mem b →
    ((s.kern.mem.bufs b).state &&& bcGoingOut ≠ 0#32 ↔ 0 < s.writesFor (s.kern.mem.bufs b)) ∧
      (s.kern.mem.bufs b).writecnt.toNat = s.writesFor (s.kern.mem.bufs b)

/-- **Outstanding writes are counted exactly** in every state that a run of counted calls
    reaches. -/
theorem writes_counted_of_run {s₀ s : Io} (h₀ : s₀.Idle)
    (hrun : Run.Reaches (fun s op s' => IoOp.exec s op = some s')
      (fun s op => op.Contract s ∧ op.Counted s) s₀ s) : WritesCounted s := by
  have hinv : Tracked s :=
    hrun.invariant h₀.tracked fun _ _ _ h hok heq => h.exec hok.1 hok.2 heq
  intro b hb
  rw [hinv.writesFor_eq hb]
  exact ⟨(hinv.counts b hb).2, (hinv.counts b hb).1⟩

/-- The small machine with a page of the first environment's, and the rights to disk 0. -/
def filingMem : Mem :=
  (bootMem 8 eight_le fun p =>
    if p = 0 then .inval else if p = 1 then .kernel else if p = 2 then .user else .free).modPage 2
      fun pp => { pp with acl := [.ofCap rootCap.1] }
def filingDisk : PxnState :=
  { PxnState.empty with
    pxns := Function.update (fun _ => none) 0 (some
      ⟨⟨0, 0⟩, [.ofCap rootCap.1], [.ofCap rootCap.1], [⟨.xtnt, ⟨0, 100⟩, none, 0⟩], 1, false⟩)
    cache := [0]
    nextPxn := 1 }
def filingIo : Io where
  kern := (bootKernel filingMem rootCap 1 ⟨512, 0x100000, ⟨0, 0⟩⟩).setPxn filingDisk
  ndevs := 1
  pending := []
  shouldReschedule := 0

theorem filingIo_idle : filingIo.Idle where
  inv := by
    have hboot : CacheInv (bootMem 8 eight_le fun p =>
        if p = 0 then .inval else if p = 1 then .kernel else if p = 2 then .user else .free) :=
      ⟨bootMem_pageInv 8 (by decide) _, fun b c hb => (nomatch hb), by decide⟩
    exact hboot.modPage 2 (f := fun pp => { pp with acl := [.ofCap rootCap.1] }) (fun _ => rfl)
      fun _ => rfl
  pending := rfl
  quiet b hb := nomatch hb

/-- Enter the page as block 5 of the disk, in a state of the caller's choice. -/
def fileBlock (state : BitVec 8) : IoOp :=
  .cache (.insert 5 0 (some ⟨0, 0⟩) 5 state 0 2 (some ⟨ppAccessAll, ppAccessAll⟩))
def filed (state : BitVec 8) : Io := ((fileBlock state).exec filingIo).getD filingIo

/-- Write it. -/
def writeBlock : IoOp := .writeDirtyBufs 0 0 5 1 0
def written : Io := (writeBlock.exec (filed 0)).getD filingIo

theorem writeBlock_counted : writeBlock.Counted (filed 0) where
  low := by decide
  sectors := ⟨by decide +kernel, by decide +kernel⟩
  count j hj b hb := by
    obtain rfl : j = 0 := Nat.lt_one_iff.mp hj
    have hl : bcLookup64 (filed 0).kern.mem 0 (5 + BitVec.ofNat 64 0) = some 135 := by
      decide +kernel
    obtain rfl : 135 = b := some.inj (hl.symm.trans hb)
    decide +kernel
  room := by
    left
    show 3 ≤ spare (filed 0).kern.mem
    decide +kernel

/-- The block is entered and written: one write is with the driver, and the header says so. -/
theorem writes_counted_one :
    (written.kern.mem.bufs 135).writecnt = 1#8 ∧ WritesCounted written := by
  have h₁ : (fileBlock 0).exec filingIo = some (filed 0) := rfl
  have h₂ : writeBlock.exec (filed 0) = some written := rfl
  refine ⟨by decide +kernel, writes_counted_of_run filingIo_idle
    ((Run.Reaches.refl.call (i := fileBlock 0) ⟨trivial, ?_⟩ h₁).call (i := writeBlock)
      ⟨trivial, writeBlock_counted⟩ h₂)⟩
  exact ⟨by decide +kernel, by decide⟩

/-- **A block that is going out although nobody writes it**: the caller said so when it was
    entered. -/
theorem writes_miscounted :
    Run.Reaches (fun s op s' => IoOp.exec s op = some s') (fun s op => op.Contract s) filingIo
        (filed 4) ∧ ¬WritesCounted (filed 4) := by
  have h₁ : (fileBlock 4).exec filingIo = some (filed 4) := rfl
  refine ⟨Run.Reaches.refl.call (i := fileBlock 4) trivial h₁, fun hall => ?_⟩
  have hb : Cached (filed 4).kern.mem 135 := by
    unfold Cached
    decide +kernel
  have hgoing := (hall 135 hb).1.mp (by decide +kernel)
  exact absurd hgoing (by decide +kernel)

end Exokernel
