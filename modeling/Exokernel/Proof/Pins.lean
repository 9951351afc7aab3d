import Exokernel.Proof.KernelSpace
import Exokernel.Proof.Outstanding

/-!
# Pins — a page is pinned once for each pending request that names it

A pinned page is not given away, so a page that is pinned too rarely is given away under a
transfer, and one that is pinned too often is lost. **Pins are made and undone in different
places.** A request of the cache names kernel pages and undoes exactly what it made. A raw
request names addresses, and they are looked up again when it completes; and two of the raw calls
return with an error after they have pinned something.

Nothing but `ppage_pin` and `ppage_unpin` touches a pin count: a page that is reclaimed keeps it.
So the count can be followed through a call without knowing anything about free lists, the cache
or the page tables. `SamePins` is this frame, `Pins` says what a piece of code added.
-/
set_option autoImplicit false

namespace Exokernel

open Option List Function

/-! ## 1. What leaves pin counts alone -/

/-- Every page is pinned as often as before. -/
def SamePins (m m' : Mem) : Prop := ∀ p, (m'.pages p).pinned = (m.pages p).pinned

namespace SamePins

variable {m m' m'' : Mem}

theorem refl (m : Mem) : SamePins m m := fun _ => rfl

theorem trans (h : SamePins m m') (h' : SamePins m' m'') : SamePins m m'' :=
  fun p => (h' p).trans (h p)

theorem ofPages (h : m'.pages = m.pages) : SamePins m m' := fun p => by rw [h]

theorem pins (h : SamePins m m') : Pins m m' [] := fun p => by simpa using h p

theorem ofUpdate {p : Nat} {pp : Ppage} (h : m'.pages = update m.pages p pp)
    (hpp : pp.pinned = (m.pages p).pinned) : SamePins m m' := by
  intro q
  rw [h]
  exact of_update Ppage.pinned fun _ => hpp

theorem modPage (m : Mem) (p : Nat) {f : Ppage → Ppage} (hf : ∀ pp, (f pp).pinned = pp.pinned) :
    SamePins m (m.modPage p f) :=
  ofUpdate rfl (hf _)

theorem assert (m : Mem) (c : Bool) : SamePins m (m.assert c) := by
  obtain ⟨_, he⟩ := m.assert_eq c
  exact ofPages (by rw [he])

theorem setClean (m : Mem) (b : Nat) : SamePins m (bcSetClean m b) := by
  obtain ⟨_, he⟩ := bcSetClean_eq m b
  exact ofPages (by rw [he])

theorem setDirty (m : Mem) (b : Nat) : SamePins m (bcSetDirty m b) := by
  refine ofPages ?_
  unfold bcSetDirty
  split
  · rfl
  · rfl

theorem remove (m : Mem) (b : Nat) : SamePins m (bcRemove m b) := by
  obtain ⟨_, he⟩ := bcRemove_shape m b
  rw [he]
  exact ofUpdate rfl rfl

theorem free (m : Mem) (p : Nat) : SamePins m (ppageFree m p) := ppageFree_pinned m p

theorem reclaimBuffer (m : Mem) (p : Nat) (t : PpStatus) :
    SamePins m (ppageReclaimBuffer m p t) := by
  cases hb : (m.pages p).buf with
  | none => exact ofPages (by simp only [ppageReclaimBuffer, hb])
  | some b =>
    obtain ⟨n, -, he⟩ := ppageReclaimBuffer_remove t hb
    rw [he]
    refine trans (trans ?_ (remove _ b)) (modPage _ p fun _ => rfl)
    exact ofPages rfl

theorem reuse (m : Mem) (p : Nat) : SamePins m (ppageReuseBuffer m p) := ofUpdate rfl rfl

theorem reclaimPage (m : Mem) (p : Nat) (t : PpStatus) : SamePins m (ppageReclaimPage m p t) :=
  ofUpdate rfl rfl

theorem reclaim (m : Mem) (p : Nat) (t : PpStatus) : SamePins m (ppageReclaim m p t) := by
  unfold ppageReclaim
  split
  · exact reclaimBuffer m p t
  · exact reclaimPage m p t

theorem alloc {t : PpStatus} {userreq : Bool} {r : Except Errno Nat}
    (h : ppageAlloc m t userreq = (r, m')) : SamePins m m' := by
  rcases ppageAlloc_cases h with ⟨-, -, rfl⟩ | ⟨p, -, -, rfl⟩
  · exact refl _
  · exact reclaim m p t

theorem kmalloc {ok : Bool} (h : kmalloc m = (ok, m')) : SamePins m m' := by
  obtain ⟨f, rfl | ⟨p, -, rfl⟩⟩ := kmalloc_cases h
  · exact ofPages rfl
  · exact fun q => reclaim _ p _ q

theorem fill (m : Mem) (buf : Nat) (dev : BitVec 32) (blk : BitVec 64) (ppn : Nat)
    (state : BitVec 8) : SamePins m (bcFill m buf dev blk ppn state) :=
  ofUpdate rfl rfl

theorem insert {dev : BitVec 32} {blk : BitVec 64} {ppn : Nat} {state : BitVec 8}
    {r : Except Errno Nat} (h : bcInsert64 m dev blk ppn state = (r, m')) : SamePins m m' := by
  have halloc : ∀ {r m₁}, bcAllocBufs m = (r, m₁) → SamePins m m₁ := by
    intro r m₁ heq
    unfold bcAllocBufs at heq
    split at heq
    · cases heq
      exact refl m
    split at heq
    · rename_i ha
      cases heq
      exact alloc ha
    · rename_i ha
      cases heq
      exact trans (alloc ha) (ofPages rfl)
  unfold bcInsert64 at h
  split at h
  · cases h
    exact refl m
  split at h
  · cases h
    exact fill m _ dev blk ppn state
  split at h
  · rename_i ha
    cases h
    exact halloc ha
  rename_i ha
  split at h
  · cases h
    exact trans (halloc ha) (fill _ _ dev blk ppn state)
  · cases h
    exact trans (halloc ha) (ofPages rfl)

theorem getReclaimableBuffer {dev : BitVec 32} {blk : BitVec 64} {state : BitVec 8}
    {userreq : Bool} {r : Except Errno Nat}
    (h : ppageGetReclaimableBuffer m dev blk state userreq = (r, m')) : SamePins m m' := by
  obtain ⟨e, -, ha⟩ | ⟨p, m₁, m₂, ha, hi, rfl⟩ := ppageGetReclaimableBuffer_cases h
  · exact alloc ha
  · exact trans (trans (alloc ha) (insert hi)) (free _ _)

/-! ### The mapping calls -/

theorem ppageRemove (k : Kernel) (d : Fin nenv) (envid va : BitVec 32) :
    SamePins k.mem (ppageRemove k d envid va).mem := by
  unfold Exokernel.ppageRemove
  split
  · exact refl _
  split
  · dsimp only
    split
    · exact refl _
    rw [Kernel.setPte_mem]
    have hdrop : ∀ p v w, SamePins k.mem (k.mem.modPage p (·.dropVpage v w)) :=
      fun p v w => modPage _ p fun _ => rfl
    split
    · exact trans (hdrop _ _ _) (free _ _)
    · exact hdrop _ _ _
  · rw [Kernel.setPte_mem]
    exact refl _

theorem keeps (k₀ : Kernel) (d : Fin nenv) (envid : BitVec 32) :
    Keeps (fun _ k => SamePins k₀.mem k.mem) d envid fun _ => True where
  trunc _ _ := trivial
  halt _ _ hk := hk
  table _ _ _ _ _ hk _ _ _ halloc := trans hk (alloc halloc)
  unmap _ k va _ hk _ _ _ _ := trans hk (ppageRemove k d envid va)
  idle _ k _ _ _ hk _ _ _ _ := by rwa [Kernel.setPte_mem]
  bogus _ k _ _ hk _ _ _ _ := by rwa [Kernel.setPte_mem]

/-- **The calls that edit page tables** pin nothing. -/
theorem callFrame : CallFrame (fun k k' => SamePins k.mem k'.mem) fun _ => True where
  trans := trans
  same _ := refl _
  halt _ := refl _
  reuse k p := reuse k.mem p
  free k p := free k.mem p
  map k₀ d envid c n :=
    { toKeeps := keeps k₀ d envid
      malloc := fun k _ _ hk _ => ⟨trans hk (kmalloc rfl), trivial⟩
      reclaim := fun k hk _ _ _ _ _ => ⟨trans hk (reclaimPage k.mem n .user), trivial⟩
      alloc := fun _ _ _ _ hk _ halloc => ⟨trans hk (alloc halloc), trivial⟩
      guard := fun _ _ _ _ hk _ _ => ⟨trans hk (ofUpdate rfl rfl), trivial⟩
      unguard := fun k p acl hk _ => by
        have hacl : SamePins k.mem (k.modPage p ({ · with acl := acl })).mem := ofUpdate rfl rfl
        exact trans (trans hk hacl) (free _ p)
      check := fun _ _ _ _ _ _ _ _ _ => trivial
      add := fun _ _ _ _ hk _ _ _ => trans hk (ofUpdate rfl rfl)
      undo := fun _ _ _ _ hk => ⟨trans hk (ofUpdate rfl rfl), trivial⟩
      finish := fun k va p perm _ hk _ _ _ _ _ _ => by
        show SamePins k₀.mem (k.setPte d va (pp2pa p ||| perm)).mem
        rwa [Kernel.setPte_mem]
      giveBack := fun k p _ hk _ => trans hk (free k.mem p) }
  mod k₀ d envid _ _ _ :=
    { toKeeps := keeps k₀ d envid
      soft := fun _ _ _ _ hk _ _ _ _ _ _ => by rwa [Kernel.setPte_mem]
      hard := fun k va pte _ hk _ _ _ _ _ _ => by
        refine trans hk ?_
        rw [Kernel.modPage_mem, Kernel.setPte_mem]
        exact modPage k.mem (pgno pte) fun _ => rfl }

end SamePins

/-! ## 2. Requests of the cache -/

section
variable {m₀ : Mem} {dev : BitVec 32} {block : BitVec 64} {res : Option Nat}

theorem Pins.perm {m : Mem} {ps qs : List Nat} (h : Pins m₀ m ps) (hp : ps.Perm qs) :
    Pins m₀ m qs := fun p => by rw [h p, hp.count_eq]

theorem Pins.same {m m' : Mem} {ps : List Nat} (h : Pins m₀ m ps) (h' : SamePins m m') :
    Pins m₀ m' ps := fun p => (h' p).trans (h p)

theorem Pins.prepare {k k' : Kernel} {blk : BitVec 64} {page : Nat} {chain : List DiskBuf}
    {r : Except Errno (List DiskBuf)} (h : Pins m₀ k.mem (chainRefs chain))
    (heq : diskPrepareBcRequest k dev blk page res chain = (r, k')) :
    Pins m₀ k'.mem (chainRefs (r.toOption.getD chain)) := by
  rcases diskPrepareBcRequest_cases heq with ⟨⟨e, rfl⟩, rfl | ⟨ok, m, hm, rfl⟩⟩ | ⟨m, hm, rfl, rfl⟩
  · exact h
  · exact h.same (.kmalloc hm)
  have hpin := ((h.same (.kmalloc hm)).trans (pins_pin m page)).trans (pins_pinRes _ res)
  rw [Except.toOption, getD_some, chainRefs_append]
  simpa [chainRefs, DiskBuf.refs] using hpin

variable (dev block res) in
/-- **The loop of `bc_read_extent64`** has pinned what is in its chain. -/
theorem bcReadLoop_pins (userreq : Bool) (left : Nat) :
    ∀ {i : Nat} {chain : List DiskBuf} {k : Kernel}, Pins m₀ k.mem (chainRefs chain) →
      Pins m₀ (bcReadLoop dev block res userreq left i chain k).k.mem
        (chainRefs (bcReadLoop dev block res userreq left i chain k).chain) := by
  induction left with
  | zero => exact fun h => h
  | succ left ih =>
    intro i chain k h
    unfold bcReadLoop
    dsimp only
    split
    · rename_i hget
      exact h.same (.getReclaimableBuffer hget)
    rename_i b m hget
    have h₁ : Pins m₀ ((k.setMem m).modPage (m.bufs b).ppn fun pp =>
        { pp with
          acl := aclInit pp.acl pp.acl.length
          state := ⟨ppAccessAll, ppAccessAll⟩ }).mem (chainRefs chain) :=
      (h.same (.getReclaimableBuffer hget)).same (SamePins.ofUpdate rfl rfl)
    split
    · rename_i hprep
      exact (h₁.prepare hprep).same ((SamePins.reclaimBuffer _ _ _).trans (.free _ _))
    · rename_i hprep
      exact ih ((h₁.prepare hprep).same (.setClean _ b))

theorem bcReadCleanup_pins (left : Nat) :
    ∀ {j : Nat} {m : Mem}, SamePins m (bcReadCleanup dev block left j m) := by
  induction left with
  | zero => exact fun {_ m} => SamePins.refl m
  | succ left ih =>
    intro j m
    unfold bcReadCleanup
    split
    · exact .ofPages rfl
    · exact (((SamePins.assert m _).trans (.reclaimBuffer _ _ _)).trans (.free _ _)).trans ih

variable (dev block res) in
/-- **The loop of `bc_write_extent64`** has pinned what is in its chain. -/
theorem bcWriteLoop_pins (left : Nat) :
    ∀ (saved : List BufSave) {i : Nat} {chain : List DiskBuf} {k : Kernel},
      Pins m₀ k.mem (chainRefs chain) →
      Pins m₀ (bcWriteLoop dev block res left i saved chain k).k.mem
        (chainRefs (bcWriteLoop dev block res left i saved chain k).chain) := by
  induction left with
  | zero => exact fun _ {_ _ _} h => h
  | succ left ih =>
    intro saved i chain k h
    unfold bcWriteLoop
    dsimp only
    split
    · exact h
    split
    · exact h
    rename_i b _ _
    have h₁ : Pins m₀ (k.setMem (k.mem.modBuf b fun e =>
        { e with writecnt := e.writecnt + 1, state := e.state ||| bcGoingOut })).mem
        (chainRefs chain) := h
    split
    · rename_i hprep
      exact h₁.prepare hprep
    · rename_i hprep
      exact ih _ ((h₁.prepare hprep).same (.setClean _ b))

theorem bcWriteCleanup_pins (saved : List BufSave) :
    ∀ {j : Nat} {m : Mem}, SamePins m (bcWriteCleanup dev block saved j m) := by
  induction saved with
  | nil => exact fun {_ m} => SamePins.refl m
  | cons old saved ih =>
    intro j m
    unfold bcWriteCleanup
    split
    · exact .ofPages rfl
    refine SamePins.trans ?_ ih
    have hassert : ∀ c, SamePins m (m.assert c) := SamePins.assert m
    split
    · split
      · exact (hassert _).trans (SamePins.trans (.ofPages rfl) (.setDirty _ _))
      · exact (hassert _).trans (SamePins.trans (.ofPages rfl) (.setClean _ _))
    · exact (hassert _).trans (.ofPages rfl)

/-- Freeing a chain undoes its pins, and every page it unpins is pinned. -/
theorem Pins.undone {m : Mem} {chain : List DiskBuf} (h : Pins m₀ m (chainRefs chain)) :
    SamePins m₀ (diskBufFreeChain m chain) ∧
      (diskBufFreeChain m chain).panicked = m.panicked := by
  rw [h.unpin]
  exact ⟨fun _ => rfl, rfl⟩

end

/-- A request as the calls make them. -/
def Xfer.Whole (x : Xfer) : Prop :=
  match x.buf.data with
  | .page p => x.pages = [p]
  | .user _ datalen => datalen = 0 → x.pages = []
  | .cmd _ => False

/-- A call hands `xs` to the driver and pins what they name. If it fails there are none. -/
structure Submits (s : Io) (r : Ret) (s' : Io) (xs : List Xfer) : Prop where
  pending : s'.pending = s.pending ++ xs
  pins : Pins s.kern.mem s'.kern.mem (xs.flatMap Xfer.refs)
  whole : ∀ x ∈ xs, x.Whole
  failed : r ≠ .ok → xs = []

namespace Submits

variable {s s' : Io} {r : Ret}

theorem nothing (hp : s'.pending = s.pending) (h : SamePins s.kern.mem s'.kern.mem) :
    Submits s r s' [] where
  pending := by rw [hp, append_nil]
  pins := h.pins
  whole _ hx := by simp at hx
  failed _ := rfl

theorem ofChain {k : Kernel} {chain : List DiskBuf} {read : Bool} {dev envid : BitVec 32}
    (h : Pins s.kern.mem k.mem (chainRefs chain)) (hr : r ≠ .ok → chain = []) :
    Submits s r ((s.setKern k).strategy (chain.map (DiskBuf.xfer read dev envid)))
      (chain.map (DiskBuf.xfer read dev envid)) where
  pending := rfl
  pins := by
    rw [Tracked.chain_refs]
    exact h
  whole x hx := by
    obtain ⟨bp, -, rfl⟩ := mem_map.mp hx
    exact rfl
  failed hne := by rw [hr hne, map_nil]

theorem readExtent {cur : Fin nenv} {dev : BitVec 32} {block : BitVec 64} {num : BitVec 32}
    {res : Option Nat} {userreq : Bool}
    (heq : s.readExtent cur dev block num res userreq = (r, s')) : ∃ xs, Submits s r s' xs := by
  have hstart : Pins s.kern.mem s.kern.mem (chainRefs []) := (SamePins.refl _).pins
  have hloop := bcReadLoop_pins dev block res userreq num.toNat (i := 0) hstart
  unfold Io.readExtent at heq
  cases hread : bcReadExtent64 s.kern dev block num.toNat res userreq with
  | mk r₁ k =>
    rw [hread] at heq
    cases heq
    rcases bcReadExtent64_cases rfl hread with ⟨hnil, rfl⟩ | ⟨hr, hchain, rfl⟩
    · refine ⟨_, ofChain ?_ fun _ => hnil⟩
      rw [hnil]
      exact (hloop.undone.1.trans (bcReadCleanup_pins _)).pins
    · refine ⟨_, ofChain ?_ fun hne => absurd hr hne⟩
      rw [hchain]
      exact hloop

theorem writeExtent {cur : Fin nenv} {dev : BitVec 32} {block : BitVec 64} {num : BitVec 32}
    {res : Option Nat} (heq : s.writeExtent cur dev block num res = (r, s')) :
    ∃ xs, Submits s r s' xs := by
  unfold Io.writeExtent at heq
  obtain ⟨r₁, chain, k, hwrite⟩ :
      ∃ r₁ chain k, bcWriteExtent64 s.kern dev block num.toNat res = (r₁, chain, k) :=
    ⟨_, _, _, rfl⟩
  rw [hwrite] at heq
  cases heq
  rcases bcWriteExtent64_cases hwrite with ⟨rfl, m, hm, rfl⟩ | ⟨m₁, ok, m, hm₁, hm, hend⟩
  · exact ⟨_, ofChain (SamePins.kmalloc hm).pins fun _ => rfl⟩
  have hstart : Pins s.kern.mem (s.kern.setMem m).mem (chainRefs []) :=
    ((SamePins.kmalloc hm₁).trans (.kmalloc hm)).pins
  have hloop := bcWriteLoop_pins dev block res num.toNat [] (i := 0) hstart
  rcases hend with ⟨rfl, rfl | rfl⟩ | ⟨rfl, rfl, rfl⟩
  · exact ⟨_, ofChain hstart fun _ => rfl⟩
  · exact ⟨_, ofChain (hloop.undone.1.trans (bcWriteCleanup_pins _)).pins fun _ => rfl⟩
  · exact ⟨_, ofChain hloop fun hne => absurd rfl hne⟩

end Submits

/-! ## 3. Memory for requests -/

/-- Empty pages that nobody pinned, those in `ps` apart. -/
def spareBut (m : Mem) (ps : List Nat) : Nat :=
  m.freeList.countP fun p => decide ((m.pages p).pinned = 0 ∧ p ∉ ps)

/-- The next `n` requests for memory find a block in the pool or an empty page that is not in
    `ps`. -/
def RoomFor (m : Mem) (n : Nat) (ps : List Nat) : Prop :=
  (range n).countP (fun i => decide (m.mallocs i = .page)) ≤ spareBut m ps

section
variable {m m' : Mem} {n : Nat} {ps : List Nat}

theorem ppageReclaim_lists (m : Mem) (p : Nat) (t : PpStatus) :
    (ppageReclaim m p t).nppage = m.nppage ∧ (ppageReclaim m p t).mallocs = m.mallocs ∧
      ((ppageReclaim m p t).freeList = m.freeList ∨
        (ppageReclaim m p t).freeList = m.freeList.erase p) := by
  unfold ppageReclaim
  split
  · cases hb : (m.pages p).buf with
    | none => simp [ppageReclaimBuffer, hb]
    | some b =>
      obtain ⟨n, -, he⟩ := ppageReclaimBuffer_remove t hb
      obtain ⟨pan, hr⟩ := bcRemove_shape _ b
      rw [he, hr]
      exact ⟨rfl, rfl, .inl rfl⟩
  · exact ⟨rfl, rfl, .inr rfl⟩

theorem kmalloc_nppage {ok : Bool} (h : kmalloc m = (ok, m')) : m'.nppage = m.nppage := by
  obtain ⟨f, rfl | ⟨p, -, rfl⟩⟩ := kmalloc_cases h
  · rfl
  · exact (ppageReclaim_lists _ p _).1

theorem spareBut_congr (hl : m'.freeList = m.freeList)
    (hp : ∀ p ∉ ps, (m'.pages p).pinned = (m.pages p).pinned) : spareBut m' ps = spareBut m ps := by
  rw [spareBut, spareBut, hl]
  refine countP_congr fun p _ => ?_
  by_cases hmem : p ∈ ps
  · simp [hmem]
  · simp [hmem, hp p hmem]

theorem spareBut_reclaim (m : Mem) (p : Nat) (t : PpStatus) (ps : List Nat) :
    spareBut m ps ≤ spareBut (ppageReclaim m p t) ps + 1 := by
  have hpin := SamePins.reclaim m p t
  rcases (ppageReclaim_lists m p t).2.2 with hl | hl
  · rw [spareBut_congr hl fun q _ => hpin q]
    omega
  have hcount : spareBut (ppageReclaim m p t) ps =
      (m.freeList.erase p).countP fun q => decide ((m.pages q).pinned = 0 ∧ q ∉ ps) := by
    rw [spareBut, hl]
    exact countP_congr fun q _ => by simp only [hpin q]
  rw [hcount, countP_erase]
  unfold spareBut
  split
  · omega
  · omega

/-- **`malloc`** succeeds and leaves room for one request less. -/
theorem RoomFor.kmalloc (h : RoomFor m (n + 1) ps) :
    ∃ m', Exokernel.kmalloc m = (true, m') ∧ SamePins m m' ∧ RoomFor m' n ps := by
  have hcount : (range (n + 1)).countP (fun i => decide (m.mallocs i = .page)) =
      (range n).countP (fun i => decide (m.mallocs (i + 1) = .page)) +
        if m.mallocs 0 = .page then 1 else 0 := by
    rw [range_succ_eq_map, countP_cons, countP_map]
    simp [Function.comp_def]
  have hle := h
  rw [RoomFor, hcount] at hle
  cases h0 : m.mallocs 0 with
  | block =>
    have hm : Exokernel.kmalloc m = (true, { m with mallocs := fun n => m.mallocs (n + 1) }) := by
      rw [Exokernel.kmalloc, h0]
    refine ⟨_, hm, .kmalloc hm, ?_⟩
    simpa [h0, RoomFor, spareBut] using hle
  | page =>
    rw [if_pos h0] at hle
    have hpos : 0 < spareBut m ps := by omega
    obtain ⟨q, hq, hfree⟩ := countP_pos_iff.mp hpos
    have hsome : (m.freeList.find? fun p => decide ((m.pages p).pinned = 0)).isSome = true := by
      rw [find?_isSome]
      exact ⟨q, hq, by simpa using (of_decide_eq_true hfree).1⟩
    obtain ⟨p, hp⟩ := isSome_iff_exists.mp hsome
    have hm : Exokernel.kmalloc m =
        (true, ppageReclaim { m with mallocs := fun n => m.mallocs (n + 1) } p .kernel) := by
      rw [Exokernel.kmalloc, h0]
      simp [ppageAlloc, ppageFindFree, hp]
    refine ⟨_, hm, .kmalloc hm, ?_⟩
    have hspare := spareBut_reclaim { m with mallocs := fun n => m.mallocs (n + 1) } p .kernel
      ps
    have hsame : spareBut { m with mallocs := fun n => m.mallocs (n + 1) } ps = spareBut m ps := rfl
    rw [RoomFor, (ppageReclaim_lists _ p .kernel).2.1]
    dsimp only
    omega

theorem RoomFor.pin (h : RoomFor m n ps) (hl : m'.freeList = m.freeList)
    (hm : m'.mallocs = m.mallocs) (hp : ∀ p ∉ ps, (m'.pages p).pinned = (m.pages p).pinned) :
    RoomFor m' n ps := by
  rw [RoomFor, hm, spareBut_congr hl hp]
  exact h

theorem RoomFor.mono {qs : List Nat} (h : RoomFor m n ps) (hsub : ∀ q ∈ qs, q ∈ ps) :
    RoomFor m n qs := by
  refine h.trans (countP_mono_left fun p _ hp => ?_)
  rw [decide_eq_true_eq] at hp ⊢
  exact ⟨hp.1, fun hq => hp.2 (hsub p hq)⟩

end

/-! ## 4. Raw requests -/

/-- The pages behind addresses of environment `i`, as its page tables are now. -/
def pagesAt (k : Kernel) (i : Fin nenv) : List (BitVec 32) → Option (List Nat)
  | [] => some []
  | va :: vas => (envVa2ptep k i va).bind fun pte => (pagesAt k i vas).map (pgno pte :: ·)

section
variable {k : Kernel} {i : Fin nenv}

theorem pagesAt_setMem (k : Kernel) (m : Mem) (i : Fin nenv) (vas : List (BitVec 32)) :
    pagesAt (k.setMem m) i vas = pagesAt k i vas := by
  induction vas with
  | nil => rfl
  | cons va vas ih =>
    rw [pagesAt, pagesAt, ih]
    rfl

theorem pinAddrs_eq (vas : List (BitVec 32)) : ∀ (k : Kernel),
    pinAddrs k i vas = (pagesAt k i vas).map fun ps =>
      (ps, k.setMem (ps.foldl ppagePin k.mem)) := by
  induction vas with
  | nil => exact fun _ => rfl
  | cons va vas ih =>
    intro k
    rw [pinAddrs, pagesAt]
    cases envVa2ptep k i va with
    | none => rfl
    | some pte =>
      simp only [bind_some, ih, pagesAt_setMem, Option.map_map]
      rfl

theorem unpinAddrs_eq (vas : List (BitVec 32)) : ∀ (k : Kernel),
    unpinAddrs k i vas = (pagesAt k i vas).map fun ps =>
      k.setMem (ps.foldl ppageUnpin k.mem) := by
  induction vas with
  | nil => exact fun _ => rfl
  | cons va vas ih =>
    intro k
    rw [unpinAddrs, pagesAt]
    cases envVa2ptep k i va with
    | none => rfl
    | some pte =>
      simp only [bind_some, ih, pagesAt_setMem, Option.map_map]
      rfl

theorem foldl_pin (ps : List Nat) : ∀ (m : Mem), Pins m (ps.foldl ppagePin m) ps ∧
    (ps.foldl ppagePin m).freeList = m.freeList ∧ (ps.foldl ppagePin m).mallocs = m.mallocs ∧
    (ps.foldl ppagePin m).nppage = m.nppage := by
  induction ps with
  | nil => exact fun m => ⟨(SamePins.refl m).pins, rfl, rfl, rfl⟩
  | cons p ps ih =>
    intro m
    obtain ⟨hpins, hfree, hmallocs, hn⟩ := ih (ppagePin m p)
    exact ⟨(pins_pin m p).trans hpins, hfree, hmallocs, hn⟩

/-- `pin_and_count_noncontigs` pins the pages behind the data. -/
theorem pinAndCountNoncontigs_eq (k : Kernel) (i : Fin nenv) (addr datalen : BitVec 32) :
    pinAndCountNoncontigs k i addr datalen = (pagesAt k i (dataAddrs addr datalen)).map fun ps =>
      (countNoncontigs k.mem.nppage ps, ps, k.setMem (ps.foldl ppagePin k.mem)) := by
  rw [pinAndCountNoncontigs, pinAddrs_eq, Option.map_map]
  congr 1
  funext ps
  simp [(foldl_pin ps k.mem).2.2.2]

/-- Where the pages of a request are found when it completes: in the cache, or behind the same
    addresses of an environment that still exists, if the addresses do not wrap. -/
def Xfer.Found (k : Kernel) (x : Xfer) : Prop :=
  match x.buf.data with
  | .user data datalen => datalen = 0 ∨ data.toNat + datalen.toNat ≤ 2 ^ 32 ∧
      ∃ i, envId2env k x.buf.envid = .ok i ∧ pagesAt k i (dataAddrs data datalen) = some x.pages
  | _ => True

/-- **`disk_buf_free`** unpins the pages that the driver was given. -/
theorem bufFree_eq {x : Xfer} (hw : x.Whole) (hf : x.Found k) :
    bufFree k x.buf = some (k.setMem (x.refs.foldl ppageUnpin k.mem)) := by
  rw [Xfer.refs, foldl_append]
  unfold Xfer.Whole at hw
  unfold Xfer.Found at hf
  unfold bufFree
  cases hd : x.buf.data with
  | page p =>
    rw [hd] at hw
    rw [show x.pages = [p] from hw]
    cases x.buf.res <;> rfl
  | user data datalen =>
    rw [hd] at hw hf
    dsimp only at hw hf ⊢
    by_cases h0 : datalen = 0
    · rw [if_pos h0, hw h0]
      cases x.buf.res <;> rfl
    rw [if_neg h0]
    rcases hf with hf | ⟨hwrap, j, hj, hpages⟩
    · exact absurd hf h0
    rw [if_neg (not_lt.mpr hwrap), hj]
    dsimp only
    rw [unpinAddrs_eq, hpages]
    cases x.buf.res <;> rfl
  | cmd addr =>
    rw [hd] at hw
    exact hw.elim

end

variable {cur : Fin nenv} {data datalen : BitVec 32} {k : Kernel} {r : Ret} {s s' : Io}

theorem bufFree_wraps {bp : Buf}
    (hd : bp.data = .user data datalen) (h0 : datalen ≠ 0)
    (hw : 2 ^ 32 < data.toNat + datalen.toNat) : bufFree k bp = none := by
  unfold bufFree
  rw [hd]
  dsimp only
  rw [if_neg h0, if_pos hw]
  rfl

/-- The environment that makes the call is the one its name leads to. -/
def Current (k : Kernel) (cur : Fin nenv) : Prop := envId2env k (k.envs cur).id = .ok cur

theorem SamePins.kmalloc3 {m m' : Mem} {ok : Bool} (h : Exokernel.kmalloc3 m = (ok, m')) :
    SamePins m m' := by
  unfold Exokernel.kmalloc3 at h
  cases h₁ : Exokernel.kmalloc m with
  | mk ok₁ m₁ =>
    rw [h₁] at h
    cases ok₁ with
    | false =>
      cases h
      exact SamePins.kmalloc h₁
    | true =>
      dsimp only at h
      cases h₂ : Exokernel.kmalloc m₁ with
      | mk ok₂ m₂ =>
        have h₁₂ := (SamePins.kmalloc h₁).trans (.kmalloc h₂)
        rw [h₂] at h
        cases ok₂ with
        | false =>
          cases h
          exact h₁₂
        | true => exact h₁₂.trans (.kmalloc h)

theorem Xfer.whole_user {i : Fin nenv} {bp : Buf} {ps : List Nat}
    (hd : bp.data = .user data datalen)
    (hps : pagesAt k i (dataAddrs data datalen) = some ps) : Xfer.Whole ⟨bp, ps⟩ := by
  unfold Xfer.Whole
  rw [show (Xfer.mk bp ps).buf.data = .user data datalen from hd]
  rintro rfl
  exact (some.inj hps).symm

theorem bufFree_undo {k' : Kernel} {m₀ : Mem} {i : Fin nenv} {x : Xfer}
    (hd : x.buf.data = .user data datalen)
    (hps : pagesAt k i (dataAddrs data datalen) = some x.pages)
    (hi : envId2env k x.buf.envid = .ok i) (hpins : Pins m₀ k.mem x.refs)
    (h : bufFree k x.buf = some k') : SamePins m₀ k'.mem := by
  have hfound : x.Found k := by
    unfold Xfer.Found
    rw [hd]
    by_cases h0 : datalen = 0
    · exact .inl h0
    refine .inr ⟨?_, i, hi, hps⟩
    by_contra hw
    rw [bufFree_wraps hd h0 (not_le.mp hw)] at h
    cases h
  have hwhole : x.Whole := Xfer.whole_user hd hps
  rw [bufFree_eq hwhole hfound, foldl_unpin _ fun p => by rw [hpins p]; omega] at h
  cases h
  intro p
  have := hpins p
  simp only [Kernel.setMem_mem]
  omega

namespace Submits

variable {s s' : Io} {r : Ret} {cur : Fin nenv}

/-- A call that ends before it has pinned anything. -/
theorem early {e : Ret} (h : some (e, s) = some (r, s')) : ∃ xs, Submits s r s' xs := by
  cases h
  exact ⟨_, nothing rfl (SamePins.refl _)⟩

theorem one {k : Kernel} {x : Xfer} (h : Pins s.kern.mem k.mem x.refs) (hx : x.Whole) :
    Submits s .ok ((s.setKern k).strategy [x]) [x] where
  pending := rfl
  pins := by
    rw [flatMap_singleton]
    exact h
  whole y hy := by
    obtain rfl := mem_singleton.mp hy
    exact hx
  failed hne := absurd rfl hne

/-- **`sys_disk_scsicmd`** unpins what it pinned when the data lie in too many pieces. -/
theorem scsicmd {kcap reqbp : BitVec 32} {ram : Ram} (hcur : Current s.kern cur)
    (heq : sysDiskScsicmd s cur kcap reqbp ram = some (r, s')) : ∃ xs, Submits s r s' xs := by
  unfold sysDiskScsicmd at heq
  split at heq
  · exact early heq
  split at heq
  · rename_i m hm
    cases heq
    exact ⟨_, nothing rfl (.kmalloc3 hm)⟩
  rename_i m hm
  unfold scsicmdSubmit at heq
  dsimp only at heq
  obtain ⟨res, -, heq⟩ := bind_eq_some_iff.mp heq
  rw [pinAndCountNoncontigs_eq] at heq
  obtain ⟨⟨n, ps, k'⟩, hpin, heq⟩ := bind_eq_some_iff.mp heq
  obtain ⟨ps, hpages, hpin⟩ := map_eq_some_iff.mp hpin
  cases hpin
  have hpins : Pins s.kern.mem (ps.foldl ppagePin (ppagePin m res)) (ps ++ [res]) := by
    have h := (((SamePins.kmalloc3 hm).pins).trans (pins_pin m res)).trans
      (foldl_pin ps (ppagePin m res)).1
    exact h.perm perm_append_comm
  split at heq
  · obtain ⟨k₁, hfree, hres⟩ := map_eq_some_iff.mp heq
    cases hres
    rw [← pagesAt_setMem _ (ps.foldl ppagePin (ppagePin m res))] at hpages
    refine ⟨_, nothing rfl (bufFree_undo (x := ⟨_, ps⟩) rfl hpages ?_ ?_ hfree)⟩
    · exact hcur
    · exact hpins
  · cases heq
    exact ⟨_, one (x := ⟨_, ps⟩) hpins (Xfer.whole_user rfl hpages)⟩

end Submits

/-! ### `sys_disk_mbr` -/

/-- The buffer lies in one page and passes the check; there is memory for the request. -/
structure MbrOk (k : Kernel) (cur : Fin nenv) (write : Bool) (buffer resptr : BitVec 32) :
    Prop where
  checked : mbrBufferOk k cur write buffer = true
  onePage : buffer.toNat % 4096 + 512 ≤ 4096
  room : RoomFor k.mem 1 [pgno (envVa2pa k cur resptr)]

theorem dataAddrs_onePage (h : data.toNat % 4096 + 512 ≤ 4096) :
    dataAddrs data 512 = [data] := by
  have hlt := data.isLt
  have hnext : (pgTrunc data + 4096 - data).toNat = 4096 - data.toNat % 4096 := by
    rw [BitVec.toNat_sub, BitVec.toNat_add, toNat_pgTrunc]
    have h4 : (4096 : BitVec 32).toNat = 4096 := rfl
    omega
  have hle : (512 : BitVec 32) ≤ pgTrunc data + 4096 - data := by
    rw [BitVec.le_def, hnext]
    have h5 : (512 : BitVec 32).toNat = 512 := rfl
    omega
  have hsteps : (512 : BitVec 32).toNat / 4096 + 2 = 2 := rfl
  rw [dataAddrs, hsteps, dataSteps, if_neg (by decide)]
  rw [if_pos hle]

/-- **`sys_disk_mbr`**, if it does not fail after it has pinned the result word's page. -/
theorem Submits.mbr {write : Bool}
    {dev kcap buffer resptr : BitVec 32}
    (hok : mbrCheck s.kern cur dev kcap resptr = .ok () → MbrOk s.kern cur write buffer resptr)
    (heq : sysDiskMbr s cur write dev kcap buffer resptr = some (r, s')) :
    ∃ xs, Submits s r s' xs := by
  unfold sysDiskMbr at heq
  split at heq
  · exact early heq
  rename_i hcheck
  replace hok := hok hcheck
  obtain ⟨res, hres, heq⟩ := bind_eq_some_iff.mp heq
  obtain rfl := resultPage_eq hres
  dsimp only at heq
  have hbuf : mbrBufferOk (s.kern.setMem (ppagePin s.kern.mem (pgno (envVa2pa s.kern cur resptr))))
      cur write buffer = true := hok.checked
  rw [hbuf] at heq
  have hpin := pins_pin s.kern.mem (pgno (envVa2pa s.kern cur resptr))
  have hroom : RoomFor (ppagePin s.kern.mem (pgno (envVa2pa s.kern cur resptr))) 1
      [pgno (envVa2pa s.kern cur resptr)] := by
    refine hok.room.pin rfl rfl fun p hp => ?_
    rw [hpin p, count_eq_zero.mpr hp, Nat.add_zero]
  obtain ⟨m, hm, hsame, -⟩ := hroom.kmalloc
  simp only [Bool.not_true, Bool.false_eq_true, if_false, Kernel.setMem_mem, hm] at heq
  obtain ⟨p, hp, heq⟩ := map_eq_some_iff.mp heq
  cases heq
  rw [dataAddrs_onePage hok.onePage, map_singleton, ← resultPage_eq hp]
  refine ⟨_, one ?_ (show (512 : BitVec 32) = 0 → [p] = [] from fun h => absurd h (by decide))⟩
  have hall := ((hpin.same hsame).trans (pins_pin m p)).perm perm_append_comm
  exact hall

/-! ### `sys_disk_request` -/

/-- The segments as the second loop reads them, up to one that is not mapped. -/
def copySegs (k : Kernel) (cur : Fin nenv) (dev : BitVec 32) :
    Nat → Ram → BitVec 32 → List UserBuf
  | 0, _, _ => []
  | n + 1, ram, segbp =>
    if !isreadableVarange k cur segbp sizeofBuf then []
    else
      let ram := stw ram k cur (segbp + 12) dev
      let b := ldBuf ram k cur segbp
      if b.flags &&& bScatgath ≠ 0 then b :: copySegs k cur dev n ram b.sgnext else [b]

def segPages (k : Kernel) (cur : Fin nenv) (b : UserBuf) : List Nat :=
  (pagesAt k cur (dataAddrs b.memaddr b.bcount)).getD []

/-- No segment claims to be a command, all of them lie in fewer than `DISK_MAX_SCATTER` pieces,
    and there is memory for all requests if there are several. -/
structure SegsOk (k : Kernel) (cur : Fin nenv) (segs : List UserBuf) : Prop where
  raw : ∀ b ∈ segs, b.flags &&& bScsicmd = 0
  pieces : (segs.map fun b => countNoncontigs k.mem.nppage (segPages k cur b)).sum <
    diskMaxScatter
  room : segs.length ≤ 1 ∨ RoomFor k.mem segs.length (segs.flatMap (segPages k cur))

def segXfer (k : Kernel) (cur : Fin nenv) (dev : BitVec 32) (b : UserBuf) : Xfer where
  buf :=
    { read := decide (b.flags &&& bRead ≠ 0)
      dev := dev
      blkno := b.blkno
      data := if b.flags &&& bScsicmd ≠ 0 then .cmd b.memaddr else .user b.memaddr b.bcount
      envid := (k.envs cur).id
      res := none }
  pages := segPages k cur b

/-- One round of the second loop: the segment it reads, and how it goes on. -/
theorem diskCopyLoop_succ {dev : BitVec 32} {n nc : Nat} {ram : Ram} {segbp : BitVec 32}
    {xs : List Xfer} {m : Mem} {r : Except Errno (List Xfer)} {k' : Kernel}
    (h : diskCopyLoop cur dev (n + 1) ram segbp nc xs (k.setMem m) = some (r, k')) :
    ∃ b ram' ok m₁, kmalloc m = (ok, m₁) ∧
      copySegs k cur dev (n + 1) ram segbp =
        b :: (if b.flags &&& bScatgath ≠ 0 then copySegs k cur dev n ram' b.sgnext else []) ∧
      (ok = false ∧ r = .error .noMem ∧ k' = k.setMem m₁ ∨
        ok = true ∧ pagesAt k cur (dataAddrs b.memaddr b.bcount) = some (segPages k cur b) ∧
          let nc' := nc + countNoncontigs m₁.nppage (segPages k cur b)
          let k₂ := k.setMem ((segPages k cur b).foldl ppagePin m₁)
          if diskMaxScatter ≤ nc' then r = .error .inval
          else if b.flags &&& bScatgath ≠ 0 then
            diskCopyLoop cur dev n ram' b.sgnext nc' (xs ++ [segXfer k cur dev b]) k₂ = some (r, k')
          else r = .ok (xs ++ [segXfer k cur dev b]) ∧ k' = k₂) := by
  unfold diskCopyLoop at h
  rw [copySegs]
  split at h
  · cases h
  rename_i hread
  rw [if_neg (show ¬(!isreadableVarange k cur segbp sizeofBuf) = true from hread)]
  dsimp only at h ⊢
  -- the tables, and so what is read, do not depend on the page descriptors
  have hst : stw ram (k.setMem m) cur (segbp + 12) dev = stw ram k cur (segbp + 12) dev := rfl
  rw [hst] at h
  generalize stw ram k cur (segbp + 12) dev = ram' at h ⊢
  have hld : ldBuf ram' (k.setMem m) cur segbp = ldBuf ram' k cur segbp := rfl
  rw [hld] at h
  generalize ldBuf ram' k cur segbp = b at h ⊢
  obtain ⟨ok, m₁, hm⟩ : ∃ ok m₁, kmalloc m = (ok, m₁) := ⟨_, _, rfl⟩
  refine ⟨b, ram', ok, m₁, hm, by split <;> rfl, ?_⟩
  simp only [Kernel.setMem_mem, hm] at h
  cases ok with
  | false =>
    cases h
    exact .inl ⟨rfl, rfl, rfl⟩
  | true =>
    refine .inr ⟨rfl, ?_⟩
    simp only at h
    rw [pinAndCountNoncontigs_eq, pagesAt_setMem, pagesAt_setMem] at h
    obtain ⟨⟨c, ps, k₁⟩, hpin, h⟩ := bind_eq_some_iff.mp h
    obtain ⟨ps', hps, hpin⟩ := map_eq_some_iff.mp hpin
    cases hpin
    have hseg : segPages k cur b = ps := by rw [segPages, hps, getD_some]
    subst hseg
    refine ⟨hps, ?_⟩
    split at h
    · rename_i hmany
      rw [if_pos (by exact hmany)]
      cases h
      rfl
    rename_i hfew
    rw [if_neg (by exact hfew)]
    split at h
    · rename_i hmore
      rw [if_pos hmore]
      exact h
    · rename_i hlast
      rw [if_neg hlast]
      cases h
      exact ⟨rfl, rfl⟩

/-- **The second loop of `sys_disk_request`.** With memory for the segments to come, it pins what
    is in its list. Without, it ends at the first segment. -/
theorem diskCopyLoop_pins {dev : BitVec 32} {m₀ : Mem} (n : Nat) :
    ∀ {ram : Ram} {segbp : BitVec 32} {nc : Nat} {xs : List Xfer} {m : Mem}
      {r : Except Errno (List Xfer)} {k' : Kernel},
      (∀ b ∈ copySegs k cur dev n ram segbp, b.flags &&& bScsicmd = 0) →
      nc + ((copySegs k cur dev n ram segbp).map fun b =>
        countNoncontigs k.mem.nppage (segPages k cur b)).sum < diskMaxScatter →
      (RoomFor m (copySegs k cur dev n ram segbp).length
          ((copySegs k cur dev n ram segbp).flatMap (segPages k cur)) ∨
        (copySegs k cur dev n ram segbp).length ≤ 1 ∧ xs = []) →
      m.nppage = k.mem.nppage → Pins m₀ m (xs.flatMap Xfer.refs) →
      (∀ x ∈ xs, x.Whole ∧ x.buf.res = none) →
      diskCopyLoop cur dev n ram segbp nc xs (k.setMem m) = some (r, k') →
      (∃ e, r = .error e ∧ SamePins m₀ k'.mem) ∨
        ∃ xs', r = .ok xs' ∧ Pins m₀ k'.mem (xs'.flatMap Xfer.refs) ∧
          (∀ x ∈ xs', x.Whole ∧ x.buf.res = none) ∧ xs' ≠ [] := by
  induction n with
  | zero =>
    intro ram segbp nc xs m r k' _ _ _ _ _ _ heq
    cases heq
  | succ n ih =>
    intro ram segbp nc xs m r k' hraw hpieces hroom hn hpins hxs heq
    obtain ⟨b, ram', ok, m₁, hm, hsegs, hround⟩ := diskCopyLoop_succ heq
    -- the segments to come after `b`
    generalize hrest : (if b.flags &&& bScatgath ≠ 0 then copySegs k cur dev n ram' b.sgnext
      else []) = rest at hsegs
    rw [hsegs] at hraw hpieces hroom
    rw [map_cons, sum_cons] at hpieces
    rw [length_cons, flatMap_cons] at hroom
    rcases hround with ⟨rfl, rfl, rfl⟩ | ⟨rfl, hps, hround⟩
    · rcases hroom with hroom | ⟨-, rfl⟩
      · obtain ⟨m₂, hm₂, -⟩ := hroom.kmalloc
        cases hm.symm.trans hm₂
      · refine .inl ⟨_, rfl, fun p => ?_⟩
        exact (SamePins.kmalloc hm p).trans (by simpa using hpins p)
    have hnp : m₁.nppage = k.mem.nppage := (kmalloc_nppage hm).trans hn
    obtain ⟨hpin, hfree, hmallocs, hnpin⟩ := foldl_pin (segPages k cur b) m₁
    rw [hnp, if_neg (by omega)] at hround
    have hroom' : RoomFor ((segPages k cur b).foldl ppagePin m₁) rest.length
        (rest.flatMap (segPages k cur)) := by
      rcases hroom with hroom | ⟨hlen, -⟩
      · obtain ⟨m₂, hm₂, -, hroom₂⟩ := hroom.kmalloc
        cases hm.symm.trans hm₂
        refine (hroom₂.pin hfree hmallocs fun p hp => ?_).mono fun q hq =>
          mem_append_right _ hq
        rw [hpin p, count_eq_zero.mpr fun hp' => hp (mem_append_left _ hp'),
          Nat.add_zero]
      · have h0 : rest.length = 0 := by omega
        rw [h0]
        exact Nat.zero_le _
    have hdata : b.flags &&& bScsicmd = 0 := hraw b (mem_cons_self ..)
    have hpins' : Pins m₀ ((segPages k cur b).foldl ppagePin m₁)
        ((xs ++ [segXfer k cur dev b]).flatMap Xfer.refs) := by
      have h := (hpins.same (.kmalloc hm)).trans hpin
      simpa [Xfer.refs, segXfer] using h
    have hxs' : ∀ y ∈ xs ++ [segXfer k cur dev b], y.Whole ∧ y.buf.res = none := by
      intro y hy
      rcases mem_append.mp hy with hy | hy
      · exact hxs y hy
      obtain rfl := mem_singleton.mp hy
      exact ⟨Xfer.whole_user (if_neg (not_not.mpr hdata)) hps, rfl⟩
    split at hround
    · rename_i hmore
      rw [if_pos hmore] at hrest
      subst hrest
      refine ih (fun c hc => hraw c (mem_cons_of_mem _ hc)) ?_ (.inl hroom')
        (hnpin.trans hnp) hpins' hxs' hround
      omega
    · obtain ⟨rfl, rfl⟩ := hround
      exact .inr ⟨_, rfl, hpins', hxs', by simp⟩

theorem setLastRes_cases (res : Option Nat) {xs : List Xfer} (hne : xs ≠ [])
    (hxs : ∀ x ∈ xs, x.Whole ∧ x.buf.res = none) :
    (setLastRes res xs).flatMap Xfer.refs = xs.flatMap Xfer.refs ++ res.toList ∧
      ∀ x ∈ setLastRes res xs, x.Whole := by
  obtain ⟨ys, y, rfl⟩ := (eq_nil_or_concat' xs).resolve_left hne
  have hy := hxs y (mem_append_right _ (mem_singleton_self y))
  have hlast : setLastRes res (ys ++ [y]) =
      ys ++ [{ y with buf := { y.buf with res := res } }] := by
    simp [setLastRes]
  rw [hlast]
  refine ⟨?_, fun x hx => ?_⟩
  · simp [Xfer.refs, hy.2]
  rcases mem_append.mp hx with hx | hx
  · exact (hxs x (mem_append_left _ hx)).1
  · obtain rfl := mem_singleton.mp hx
    exact hy.1

/-- **`sys_disk_request`**, if its second loop meets nothing it has to stop at. -/
theorem Submits.request {fuel : Nat} {xn : Option XnName}
    {reqbp kcap : BitVec 32} {ram : Ram} (hcur : Current s.kern cur)
    (hsegs : ∀ dev ch, diskRequestCheck fuel s.kern cur xn reqbp kcap ram = some (.ok (dev, ch)) →
      SegsOk s.kern cur (copySegs s.kern cur dev fuel ram reqbp))
    (heq : sysDiskRequest fuel s cur xn reqbp kcap ram = some (r, s')) :
    ∃ xs, Submits s r s' xs := by
  unfold sysDiskRequest at heq
  dsimp only at heq
  split at heq
  · cases heq
  split at heq
  · exact scsicmd hcur heq
  obtain ⟨check, hcheck, heq⟩ := bind_eq_some_iff.mp heq
  cases check with
  | error e => exact early heq
  | ok dc =>
    obtain ⟨dev, ch⟩ := dc
    have hok := hsegs dev ch hcheck
    obtain ⟨⟨lr, k'⟩, hloop, heq⟩ := map_eq_some_iff.mp heq
    have hstart : Pins s.kern.mem s.kern.mem (([] : List Xfer).flatMap Xfer.refs) :=
      (SamePins.refl _).pins
    have hres := diskCopyLoop_pins (m := s.kern.mem) fuel hok.raw (by simpa using hok.pieces)
      (hok.room.symm.imp_right fun h => ⟨h, rfl⟩) rfl hstart (by simp) hloop
    rcases hres with ⟨e, rfl, hsame⟩ | ⟨xs, rfl, hpins, hxs, hne⟩
    · cases heq
      exact ⟨_, nothing rfl hsame⟩
    cases heq
    obtain ⟨hrefs, hwhole⟩ := setLastRes_cases ch.res hne hxs
    refine ⟨_, rfl, ?_, hwhole, fun hne => absurd rfl hne⟩
    rw [hrefs]
    exact hpins.trans (pins_pinRes _ _)

/-! ## 5. Runs -/

def Io.pinned (s : Io) (p : Nat) : Nat := (s.kern.mem.pages p).pinned

/-- Beside the pins in `base`, there is one for each time a pending request names the page. -/
structure Balanced (base : Nat → Nat) (s : Io) : Prop where
  pins : ∀ p, s.pinned p = base p + s.refs.count p
  whole : ∀ x ∈ s.pending, x.Whole

namespace Balanced

variable {base : Nat → Nat} {s s' : Io}

theorem submits {r : Ret} {xs : List Xfer} (h : Balanced base s) (hs : Submits s r s' xs) :
    Balanced base s' where
  pins p := by
    have hp := h.pins p
    have hs' := hs.pins p
    rw [Io.pinned] at hp ⊢
    rw [Io.refs] at hp ⊢
    rw [hs.pending, flatMap_append, count_append]
    omega
  whole x hx := by
    rw [hs.pending] at hx
    rcases mem_append.mp hx with hx | hx
    · exact h.whole x hx
    · exact hs.whole x hx

theorem count_eraseIdx {n : Nat} {x : Xfer} (hn : s.pending[n]? = some x) (p : Nat) :
    s.refs.count p = ((s.pending.eraseIdx n).flatMap Xfer.refs).count p + x.refs.count p := by
  obtain ⟨hlt, rfl⟩ := List.getElem?_eq_some_iff.mp hn
  have hperm := getElem_cons_eraseIdx_perm hlt
  rw [Io.refs, ← (hperm.flatMap_right Xfer.refs).count_eq p, flatMap_cons, count_append,
    Nat.add_comm]

/-- **A completion** unpins the pages of its request, each of which is pinned. -/
theorem complete {n : Nat} {x : Xfer} (h : Balanced base s) (hn : s.pending[n]? = some x)
    (hf : x.Found s.kern) :
    ∃ s', s.complete n = some s' ∧ Balanced base s' ∧
      s'.kern.mem.panicked = s.kern.mem.panicked ∧
      ∀ p, s.pinned p = s'.pinned p + x.refs.count p := by
  have hw := h.whole x (mem_of_getElem? hn)
  -- what `bc_diskreq_done64` leaves: the same pages and page tables
  obtain ⟨s₁, hs₁, hpend, m, hkern, hpages, hpan⟩ : ∃ s₁ : Io,
      s.complete n = (bufFree s₁.kern x.buf).map s₁.setKern ∧
      s₁.pending = s.pending.eraseIdx n ∧
      ∃ m, s₁.kern = s.kern.setMem m ∧ m.pages = s.kern.mem.pages ∧
        m.panicked = s.kern.mem.panicked := by
    unfold Io.complete
    rw [hn, bind_some]
    cases hd : x.buf.data with
    | page p =>
      obtain ⟨hpend, hkern⟩ := bcDiskreqDone64_eq { s with pending := s.pending.eraseIdx n } p
        (!x.buf.read) x.buf.envid
      refine ⟨_, rfl, hpend, _, hkern, (Mem.done_fixed _ p _).1, ?_⟩
      unfold Mem.done
      split
      · rfl
      · rfl
    | user data datalen =>
      exact ⟨{ s with pending := s.pending.eraseIdx n }, rfl, rfl, s.kern.mem, rfl, rfl, rfl⟩
    | cmd addr =>
      exact ⟨{ s with pending := s.pending.eraseIdx n }, rfl, rfl, s.kern.mem, rfl, rfl, rfl⟩
  have hf₁ : x.Found s₁.kern := by
    unfold Xfer.Found at hf ⊢
    rw [hkern]
    simp only [pagesAt_setMem]
    exact hf
  have hle : ∀ p, x.refs.count p ≤ (s₁.kern.mem.pages p).pinned := by
    intro p
    have hp := h.pins p
    rw [count_eraseIdx hn p, Io.pinned] at hp
    rw [hkern, Kernel.setMem_mem, hpages]
    omega
  rw [bufFree_eq hw hf₁, foldl_unpin _ hle, hkern] at hs₁
  have hunpin : ∀ p, s.pinned p = (s.pinned p - x.refs.count p) + x.refs.count p := by
    intro p
    have hp := hle p
    rw [hkern, Kernel.setMem_mem, hpages] at hp
    rw [Io.pinned]
    omega
  refine ⟨_, hs₁, ⟨fun p => ?_, fun y hy => ?_⟩, hpan, fun p => ?_⟩
  · have hp := h.pins p
    have hcount := count_eraseIdx hn p
    have hpin := hunpin p
    simp only [Io.refs, Io.pinned, Io.setKern, Kernel.setMem_mem, hpend, hpages] at hp hcount hpin ⊢
    omega
  · have hy' : y ∈ s.pending.eraseIdx n := hpend ▸ hy
    exact h.whole y (mem_of_mem_eraseIdx hy')
  · rw [hunpin p]
    simp only [Io.pinned, Io.setKern, Kernel.setMem_mem, hpages]

end Balanced

/-- What may happen while requests are pending. Mapping calls are made by any environment. -/
inductive PinOp where
  | request (fuel : Nat) (cur : Fin nenv) (xn : Option XnName) (reqbp kcap : BitVec 32) (ram : Ram)
  | mbr (cur : Fin nenv) (write : Bool) (dev kcap buffer resptr : BitVec 32)
  | readExtent (cur : Fin nenv) (dev : BitVec 32) (block : BitVec 64) (num : BitVec 32)
      (res : Option Nat) (userreq : Bool)
  | writeExtent (cur : Fin nenv) (dev : BitVec 32) (block : BitVec 64) (num : BitVec 32)
      (res : Option Nat)
  | complete (n : Nat)
  | map (cur : Fin nenv) (call : PteCall)

namespace PinOp

/-- The call returns `r` in state `s'`. -/
def Leads (s : Io) (r : Ret) (s' : Io) : PinOp → Prop
  | request fuel cur xn reqbp kcap ram =>
    sysDiskRequest fuel s cur xn reqbp kcap ram = some (r, s')
  | mbr cur write dev kcap buffer resptr =>
    sysDiskMbr s cur write dev kcap buffer resptr = some (r, s')
  | readExtent cur dev block num res userreq =>
    s.readExtent cur dev block num res userreq = (r, s')
  | writeExtent cur dev block num res => s.writeExtent cur dev block num res = (r, s')
  | complete n => r = .ok ∧ s.complete n = some s'
  | map cur call => ∃ k, call.Leads s.kern cur k ∧ s' = s.setKern k

/-- A raw call does not have to stop after it has begun to pin, and a raw request finds its pages
    again. A request names a disk, and a mapping call does not count through a pointer into the
    kernel. -/
def Sound (s : Io) : PinOp → Prop
  | request fuel cur xn reqbp kcap ram => Current s.kern cur ∧ OnDisk s.kern cur xn reqbp kcap ram ∧
    ∀ dev ch, diskRequestCheck fuel s.kern cur xn reqbp kcap ram = some (.ok (dev, ch)) →
      SegsOk s.kern cur (copySegs s.kern cur dev fuel ram reqbp)
  | mbr cur write dev kcap buffer resptr =>
    mbrCheck s.kern cur dev kcap resptr = .ok () → MbrOk s.kern cur write buffer resptr
  | complete n => ∀ x, s.pending[n]? = some x → x.Found s.kern
  | map cur call => call.Counts s.kern cur
  | _ => True

end PinOp

theorem PinOp.submits {op : PinOp} (hok : op.Sound s)
    (hop : op.Leads s r s') : (∃ n, op = .complete n) ∨ ∃ xs, Submits s r s' xs := by
  cases op with
  | request fuel cur xn reqbp kcap ram => exact .inr (Submits.request hok.1 hok.2.2 hop)
  | mbr cur write dev kcap buffer resptr => exact .inr (Submits.mbr hok hop)
  | readExtent cur dev block num res userreq => exact .inr (Submits.readExtent hop)
  | writeExtent cur dev block num res => exact .inr (Submits.writeExtent hop)
  | complete n => exact .inl ⟨n, rfl⟩
  | map cur call =>
    obtain ⟨k, hcall, rfl⟩ := hop
    exact .inr ⟨_, Submits.nothing rfl (SamePins.callFrame.leads (fun _ _ => trivial) hok
      (.inr fun _ => trivial) hcall)⟩

/-- What balance means in state `s`, for the calls that are possible there. `counts` is about the
    state. `failed` is about error returns, `completed` about completions; the last two say that
    the clean-up of `bc_read_extent64` and `bc_write_extent64` unpins nothing that is not pinned. -/
structure PinsBalance (base : Nat → Nat) (s : Io) : Prop where
  counts : ∀ p, s.pinned p = base p + s.refs.count p
  failed : ∀ op r s', PinOp.Sound s op → PinOp.Leads s r s' op → r ≠ .ok →
    ∀ p, s'.pinned p = s.pinned p
  completed : ∀ n x, s.pending[n]? = some x → x.Found s.kern → ∃ s', s.complete n = some s' ∧
    s'.kern.mem.panicked = s.kern.mem.panicked ∧ ∀ p, s.pinned p = s'.pinned p + x.refs.count p
  readUndone : ∀ dev block res userreq num,
    let r := bcReadLoop dev block res userreq num 0 [] s.kern
    (diskBufFreeChain r.k.mem r.chain).panicked = r.k.mem.panicked
  writeUndone : ∀ dev block res num m,
    let r := bcWriteLoop dev block res num 0 [] [] (s.kern.setMem m)
    (diskBufFreeChain r.k.mem r.chain).panicked = r.k.mem.panicked

def PinOp.Step (s : Io) (op : PinOp) (s' : Io) : Prop := ∃ r, op.Leads s r s'

theorem Balanced.step {base : Nat → Nat} {op : PinOp} (h : Balanced base s)
    (hok : op.Sound s) (hop : op.Step s s') : Balanced base s' := by
  obtain ⟨r, hop⟩ := hop
  rcases PinOp.submits hok hop with ⟨n, rfl⟩ | ⟨xs, hs⟩
  · obtain ⟨-, hc⟩ := hop
    have hsome : (s.pending[n]?).isSome = true := by
      cases hn : s.pending[n]? with
      | some x => rfl
      | none =>
        rw [Io.complete, hn] at hc
        cases hc
    obtain ⟨x, hx⟩ := isSome_iff_exists.mp hsome
    obtain ⟨t, ht, hbal, -⟩ := h.complete hx (hok x hx)
    obtain rfl := some.inj (ht.symm.trans hc)
    exact hbal
  · exact h.submits hs

/-- **Pins balance in every run of sound calls**, from a state with nothing pending. -/
theorem pins_balanced_of_sound {s₀ s : Io} (h₀ : s₀.pending = [])
    (hrun : Run.Reaches (fun s op s' => PinOp.Step s op s') (fun s op => op.Sound s) s₀ s) :
    PinsBalance s₀.pinned s := by
  have hstart : Balanced s₀.pinned s₀ :=
    ⟨fun p => by simp [Io.refs, h₀], fun x hx => by simp [h₀] at hx⟩
  have h := hrun.invariant hstart fun _ _ _ hI hok hop => hI.step hok hop
  refine ⟨h.pins, fun op r s' hok hop hne p => ?_, fun n x hn hf => ?_, fun _ _ _ _ num => ?_,
    fun _ _ _ num m => ?_⟩
  · rcases PinOp.submits hok hop with ⟨n, rfl⟩ | ⟨xs, hs⟩
    · exact absurd hop.1 hne
    have hp := hs.pins p
    rw [hs.failed hne] at hp
    simpa [Io.pinned] using hp
  · obtain ⟨s', hc, -, hpan, hp⟩ := h.complete hn hf
    exact ⟨s', hc, hpan, hp⟩
  · exact (bcReadLoop_pins _ _ _ _ num (SamePins.refl _).pins).undone.2
  · exact (bcWriteLoop_pins _ _ _ num [] (SamePins.refl _).pins).undone.2

/-- A machine on which environment 0 has mapped page 5 at `0x1000` and page 6 at `0x2000`. -/
def rawIo : Io where
  kern := (bootKernel (bootMem 8 eight_le fun p =>
      if p = 0 then .inval else if p ≤ 2 then .kernel else if p = 5 ∨ p = 6 then .user else .free)
    rootCap 1 ⟨512, 0x100000, ⟨0, 0⟩⟩).setTable 0 0
      (some ⟨2, fun j => if j = 1 then 0x5007 else if j = 2 then 0x6007 else 0⟩)
  ndevs := 1
  pending := []
  shouldReschedule := 0

/-- Read the first sector to `0x2000`; the result goes to `0x1000`. -/
def readMbr : PinOp := .mbr 0 false 0 0 0x2000 0x1000
def mbrPending : Io :=
  (sysDiskMbr rawIo 0 false 0 0 0x2000 0x1000).elim rawIo Prod.snd

/-- The request keeps both pages pinned, and its completion unpins them. -/
theorem pins_balanced_mbr : mbrPending.refs = [6, 5] ∧ PinsBalance rawIo.pinned mbrPending := by
  have hsome : (sysDiskMbr rawIo 0 false 0 0 0x2000 0x1000).isSome = true := by decide +kernel
  obtain ⟨⟨r, s⟩, hs⟩ := isSome_iff_exists.mp hsome
  have hstep : readMbr.Step rawIo mbrPending := by
    refine ⟨r, ?_⟩
    rw [mbrPending, hs]
    exact hs
  refine ⟨by decide +kernel, pins_balanced_of_sound rfl
    (Run.Reaches.refl.call (i := readMbr) (fun _ => ⟨?_, ?_, ?_⟩) hstep)⟩
  · decide +kernel
  · decide
  unfold RoomFor
  decide +kernel

/-- **A page that stays pinned**: the buffer at `0x3000` is not mapped, so the call fails, and the
    page of the result word has a pin that no request accounts for. -/
theorem pins_lost_mbr :
    ∃ s, sysDiskMbr rawIo 0 false 0 0 0x3000 0x1000 = some (.err .fault, s) ∧
      s.pending = [] ∧ s.pinned 5 = rawIo.pinned 5 + 1 := by
  refine ⟨((sysDiskMbr rawIo 0 false 0 0 0x3000 0x1000).elim rawIo Prod.snd), ?_, ?_, ?_⟩
  · rfl
  · decide +kernel
  · decide +kernel

end Exokernel
