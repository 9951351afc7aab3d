import Exokernel.Kern.Capability

/-!
# Physical pages and cached buffers — the allocator of `kern/pmap.c`, `kern/bc.c`

Every physical page has a `struct Ppage`, and a page that holds a disk block has
a `struct bc_entry` that points back at it. The two sides call each other —
reclaiming a page throws its buffer out of the cache, and the cache allocates
pages for its headers — so **one record, `Mem`, holds both**: the page array, the
two free lists, the hash queues, and the `si_*` counters that mirror them.

Three things about the embedding:

* The union `pp_u` overlays the free-list links with the mapping count and the
  `Vpage` list. They are separate fields here. Nothing reads the count of a page
  while it is linked into a free list.
* A buffer header is named by its place in the UBC window: header `i` of window
  page `vp` is `vp * headersPerPage + i`. Window pages are handed out once.
* `malloc` is asked for small blocks. Whether its pool has one or a page has to be
  taken is decided by the stream `mallocs`; `free` returns blocks to the pool.

An `assert` that fails sets `panicked`, which nothing clears.
-/
set_option autoImplicit false

namespace Exokernel

/-! ## 1. Pages -/

/-- `pp_status`. -/
inductive PpStatus where
  | free | kernel | user | iomem | inval | kernro
deriving DecidableEq, Repr

/-- `struct Pp_state`: how many mappings of each kind a page admits. -/
structure PpState where
  writers : BitVec 4
  readers : BitVec 4
deriving DecidableEq, Repr

/-- `PP_ACCESS_ALL`, an in-band value of the two limits. -/
def ppAccessAll : BitVec 4 := 2

/-- `ppcompat_state`. -/
def ppcompatState (ppReaders ppWriters : Nat) (s : PpState) : Bool :=
  if s.readers = ppAccessAll ∧ s.writers = ppAccessAll then true
  else if s.readers.toNat < ppReaders ∨ s.writers.toNat < ppWriters then false
  else true

/-- `struct Vpage`: one mapping of a page. -/
structure Vpage where
  env : BitVec 32
  va : BitVec 32
deriving DecidableEq, Repr

/-- `struct Ppage`. -/
structure Ppage where
  vpl : List Vpage
  refcnt : BitVec 16
  status : PpStatus
  state : PpState
  acl : List AclEntry
  readers : BitVec 16
  writers : BitVec 16
  buf : Option Nat
  pinned : Nat

/-- What `ppage_initpp` makes of a page. The pin count survives. -/
def Ppage.init (pp : Ppage) (type : PpStatus) : Ppage :=
  { pp with
    acl := [AclEntry.ofCap Cap.null, AclEntry.ofCap Cap.null]
    buf := none
    status := type
    vpl := []
    refcnt := 0
    readers := 0
    writers := 0
    state := ⟨ppAccessAll, ppAccessAll⟩ }

/-! ## 2. Buffers -/

/-- `struct bc_entry`. -/
structure BcEntry where
  dev : BitVec 32
  blk64 : BitVec 64
  user1 : BitVec 32
  user2 : BitVec 32
  ppn : Nat
  dirty : Bool
  tainted : Bool
  writecnt : BitVec 8
  state : BitVec 32
deriving DecidableEq

/-- `buf_state` flags. -/
def bcEmpty : BitVec 32 := 0
def bcValid : BitVec 32 := 1
def bcComingIn : BitVec 32 := 2

/-- `buf_blk`, the low half of the union with `buf_blk64`. -/
def BcEntry.blk (b : BcEntry) : BitVec 32 := b.blk64.setWidth 32

/-- `BC_NUM_QS`. -/
abbrev bcNumQs : Nat := 512

/-- `__bc_hash64`. -/
def bcHash64 (dev : BitVec 32) (blk : BitVec 64) : Fin bcNumQs :=
  Fin.ofNat bcNumQs ((dev.setWidth 64 + blk) &&& 0x1ff).toNat

/-- `NBPG / sizeof (struct bc_entry)`. -/
def headersPerPage : Nat := 68

/-! ## 3. The memory manager's state -/

/-- What a request for a small block finds: one in the pool, or none. -/
inductive MallocEv where
  | block | page
deriving DecidableEq

/-- The page array, the free lists, the buffer cache and their counters. Physical
    memory is mapped between `KERNBASE` and the top, so there are at most `2^16`
    pages. -/
structure Mem where
  nppage : Nat
  nppage_le : nppage ≤ 2 ^ 16
  pages : Nat → Ppage
  freeList : List Nat
  freeBufs : List Nat
  siNfreepages : BitVec 32
  siNfreebufpages : BitVec 32
  siNdpages : BitVec 32
  bufs : Nat → BcEntry
  bcQs : Fin bcNumQs → List Nat
  bcFreeList : List Nat
  bcNextPage : Nat
  bcUpt : Nat → BitVec 32
  mallocs : Nat → MallocEv
  panicked : Bool

namespace Mem

/-- Rewrite one page's descriptor. -/
def modPage (m : Mem) (p : Nat) (f : Ppage → Ppage) : Mem :=
  { m with pages := Function.update m.pages p (f (m.pages p)) }

/-- Rewrite one buffer header. -/
def modBuf (m : Mem) (b : Nat) (f : BcEntry → BcEntry) : Mem :=
  { m with bufs := Function.update m.bufs b (f (m.bufs b)) }

/-- `assert`. -/
def assert (m : Mem) (c : Bool) : Mem :=
  if c then m else { m with panicked := true }

theorem assert_eq (m : Mem) (c : Bool) : ∃ pan, m.assert c = { m with panicked := pan } := by
  unfold assert
  split
  · exact ⟨_, rfl⟩
  · exact ⟨_, rfl⟩

end Mem

/-! ## 4. `bc_remove` and the dirty bits -/

/-- `bc_is_dirty`. -/
def bcIsDirty (m : Mem) (b : Nat) : Bool := (m.bufs b).dirty

/-- `bc_is_tainted`. -/
def bcIsTainted (m : Mem) (b : Nat) : Bool := (m.bufs b).tainted

/-- `bc_is_reclaimable`. -/
def bcIsReclaimable (m : Mem) (b : Nat) : Bool := !bcIsTainted m b && !bcIsDirty m b

/-- `bc_set_dirty`. -/
def bcSetDirty (m : Mem) (b : Nat) : Mem :=
  if !bcIsDirty m b then
    { m with siNdpages := m.siNdpages + 1 }.modBuf b ({ · with dirty := true })
  else m

/-- `bc_set_clean`. -/
def bcSetClean (m : Mem) (b : Nat) : Mem :=
  if bcIsDirty m b then
    { m with siNdpages := m.siNdpages - 1 }.modBuf b ({ · with dirty := false })
  else m

/-- `bc_set_clean` leaves everything alone but the dirty bit and the counter. -/
theorem bcSetClean_eq (m : Mem) (b : Nat) : ∃ n,
    bcSetClean m b = { m with
      siNdpages := n
      bufs := Function.update m.bufs b { m.bufs b with dirty := false } } := by
  unfold bcSetClean
  cases hd : bcIsDirty m b with
  | true => exact ⟨m.siNdpages - 1, rfl⟩
  | false =>
    refine ⟨m.siNdpages, ?_⟩
    have hself : Function.update m.bufs b { m.bufs b with dirty := false } = m.bufs := by
      rw [Function.update_eq_self_iff, ← show (m.bufs b).dirty = false from hd]
    simp [hself]

/-- `bc_remove`. `KLIST_REMOVE` unlinks the header from the queue it is on. -/
def bcRemove (m : Mem) (b : Nat) : Mem :=
  let m := m.assert ((m.bufs b).state &&& bcValid ≠ 0)
  let p := (m.bufs b).ppn
  let m := m.assert ((m.pages p).buf = some b)
  let m := { m with
    bcQs := fun q => (m.bcQs q).erase b
    bcFreeList := b :: m.bcFreeList }
  let m := m.modBuf b ({ · with state := bcEmpty })
  m.modPage p ({ · with buf := none })

/-- `bc_remove` in one equation, whether or not an assertion fires. -/
theorem bcRemove_shape (m : Mem) (b : Nat) : ∃ pan,
    bcRemove m b = { m with
      panicked := pan
      bcQs := fun q => (m.bcQs q).erase b
      bcFreeList := b :: m.bcFreeList
      bufs := Function.update m.bufs b { m.bufs b with state := bcEmpty }
      pages := Function.update m.pages (m.bufs b).ppn
        { m.pages (m.bufs b).ppn with buf := none } } := by
  unfold bcRemove
  dsimp only
  obtain ⟨_, h⟩ := m.assert_eq ((m.bufs b).state &&& bcValid ≠ 0)
  rw [h]
  obtain ⟨pan, h⟩ := Mem.assert_eq _ _
  exact ⟨pan, by rw [h]; rfl⟩

/-! ## 5. Freeing and reclaiming pages -/

/-- `ppage_initpp`. -/
def ppageInitpp (m : Mem) (p : Nat) (type : PpStatus) : Mem :=
  m.modPage p (·.init type)

/-- `ppage_free`. A page that is still mapped stays in use. -/
def ppageFree (m : Mem) (p : Nat) : Mem :=
  if (m.pages p).refcnt ≠ 0 then m
  else
    let m :=
      if (m.pages p).buf.isSome then
        { m with freeBufs := m.freeBufs ++ [p], siNfreebufpages := m.siNfreebufpages + 1 }
      else
        { m with freeList := p :: m.freeList }
    let m := m.modPage p ({ · with status := .free })
    { m with siNfreepages := m.siNfreepages + 1 }

theorem ppageFree_mapped {m : Mem} {p : Nat} (hr : (m.pages p).refcnt ≠ 0) : ppageFree m p = m := by
  rw [ppageFree, if_pos hr]

theorem ppageFree_eq {m : Mem} {p : Nat} (hr : (m.pages p).refcnt = 0) :
    ppageFree m p = { m with
      pages := Function.update m.pages p { m.pages p with status := .free }
      freeList := if (m.pages p).buf.isSome then m.freeList else p :: m.freeList
      freeBufs := if (m.pages p).buf.isSome then m.freeBufs ++ [p] else m.freeBufs
      siNfreebufpages :=
        if (m.pages p).buf.isSome then m.siNfreebufpages + 1 else m.siNfreebufpages
      siNfreepages := m.siNfreepages + 1 } := by
  rw [ppageFree, if_neg (not_not.mpr hr)]
  split <;> rfl

/-- `ppage_reclaim_buffer`. -/
def ppageReclaimBuffer (m : Mem) (p : Nat) (type : PpStatus) : Mem :=
  match (m.pages p).buf with
  | none => { m with panicked := true }
  | some b =>
    let m := if bcIsDirty m b then bcSetClean m b else m
    let m := { m with
      siNfreebufpages := m.siNfreebufpages - 1
      siNfreepages := m.siNfreepages - 1
      freeBufs := m.freeBufs.erase p }
    let m := bcRemove m b
    ppageInitpp m p type

/-- The buffer is clean when `bc_remove` gets it. -/
theorem ppageReclaimBuffer_remove {m : Mem} {p b : Nat} (t : PpStatus)
    (hb : (m.pages p).buf = some b) : ∃ n,
    bcSetClean m b = { m with
      siNdpages := n
      bufs := Function.update m.bufs b { m.bufs b with dirty := false } } ∧
    ppageReclaimBuffer m p t = ppageInitpp (bcRemove { m with
      siNdpages := n
      bufs := Function.update m.bufs b { m.bufs b with dirty := false }
      siNfreebufpages := m.siNfreebufpages - 1
      siNfreepages := m.siNfreepages - 1
      freeBufs := m.freeBufs.erase p } b) p t := by
  obtain ⟨n, hn⟩ := bcSetClean_eq m b
  have hif : (if bcIsDirty m b = true then bcSetClean m b else m) = bcSetClean m b := by
    unfold bcSetClean; split <;> rfl
  refine ⟨n, hn, ?_⟩
  rw [ppageReclaimBuffer, hb]
  dsimp only
  rw [hif, hn]

/-- `ppage_reuse_buffer`: limits, access list and buffer are kept. -/
def ppageReuseBuffer (m : Mem) (p : Nat) : Mem :=
  let m := { m with
    siNfreebufpages := m.siNfreebufpages - 1
    siNfreepages := m.siNfreepages - 1
    freeBufs := m.freeBufs.erase p }
  m.modPage p ({ · with status := .user, vpl := [], refcnt := 0 })

/-- `ppage_reclaim_page`. -/
def ppageReclaimPage (m : Mem) (p : Nat) (type : PpStatus) : Mem :=
  let m := { m with
    freeList := m.freeList.erase p
    siNfreepages := m.siNfreepages - 1 }
  ppageInitpp m p type

/-- `ppage_reclaim`. -/
def ppageReclaim (m : Mem) (p : Nat) (type : PpStatus) : Mem :=
  if (m.pages p).buf.isSome then ppageReclaimBuffer m p type else ppageReclaimPage m p type

/-- `ppage_free_bufs_2_free_list`. -/
def ppageFreeBufs2FreeList (m : Mem) (p : Nat) : Mem :=
  ppageFree (ppageReclaimBuffer m p .free) p

/-! ## 6. Allocation -/

/-- `ppage_is_reclaimable`. -/
def ppageIsReclaimable (m : Mem) (p : Nat) : Bool :=
  (m.pages p).status = .free && (m.pages p).pinned = 0 &&
    (match (m.pages p).buf with
     | none => true
     | some b => bcIsReclaimable m b)

/-- `ppage_find_free`. User requests leave the last 256 empty pages alone. -/
def ppageFindFree (m : Mem) (userreq : Bool) : Except Errno Nat :=
  let n := m.siNfreepages - m.siNfreebufpages
  let empty :=
    if !userreq || BitVec.slt 256 n then
      m.freeList.find? fun p => (m.pages p).pinned = 0
    else none
  match empty with
  | some p => .ok p
  | none =>
    match m.freeBufs.find? (ppageIsReclaimable m) with
    | some p => .ok p
    | none => .error .noMem

/-- `ppage_alloc`. -/
def ppageAlloc (m : Mem) (type : PpStatus) (userreq : Bool) : Except Errno Nat × Mem :=
  match ppageFindFree m userreq with
  | .error e => (.error e, m)
  | .ok p => (.ok p, ppageReclaim m p type)

/-- The inner loop of `ppage_alloc_n`'s first search: `n` pages from `p` on are in
    range and reclaimable. -/
def ppageRunFrom (m : Mem) (p : Nat) : Nat → Bool
  | 0 => true
  | n + 1 => decide (p < m.nppage) && ppageIsReclaimable m p && ppageRunFrom m (p + 1) n

/-- The second search of `ppage_alloc_n` from page `i` on, with `left` pages to
    look at. `start` is `*pp`; `cnt` pages from there on are reclaimable. -/
def ppageRunScan (m : Mem) (n : Nat) (i : Nat) (start : Option Nat) (cnt : Nat) :
    Nat → Option Nat
  | 0 => none
  | left + 1 =>
    let first := start.getD i
    if ppageIsReclaimable m (first + cnt) then
      if cnt + 1 = n then some first
      else ppageRunScan m n (i + 1) (some first) (cnt + 1) left
    else ppageRunScan m n (i + 1) none 0 left

/-- `n` reclaims in a row, from page `p` on. -/
def ppageReclaimRun (m : Mem) (p : Nat) (type : PpStatus) : Nat → Mem
  | 0 => m
  | n + 1 => ppageReclaimRun (ppageReclaim m p type) (p + 1) type n

/-- `ppage_alloc_n`. -/
def ppageAllocN (m : Mem) (type : PpStatus) (n : Nat) : Except Errno Nat × Mem :=
  let n := if n < 2 then 2 else n
  let found :=
    match m.freeList.find? fun p => ppageRunFrom m p n with
    | some p => some p
    | none => ppageRunScan m n 0 none 0 m.nppage
  match found with
  | none => (.error .unspecified, m)
  | some p => (.ok p, ppageReclaimRun m p type n)

/-- `malloc` of a small block: `true` is a non-null result. -/
def kmalloc (m : Mem) : Bool × Mem :=
  let m' := { m with mallocs := fun n => m.mallocs (n + 1) }
  match m.mallocs 0 with
  | .block => (true, m')
  | .page =>
    match ppageAlloc m' .kernel false with
    | (.ok _, m'') => (true, m'')
    | (.error _, m'') => (false, m'')

section
variable {m m' : Mem} {userreq : Bool}

theorem ppageFindFree_cases {p : Nat} (h : ppageFindFree m userreq = .ok p) :
    (p ∈ m.freeList ∧ (m.pages p).pinned = 0) ∨
      (p ∈ m.freeBufs ∧ ppageIsReclaimable m p = true) := by
  unfold ppageFindFree at h
  dsimp only at h
  split at h
  · rename_i heq
    cases h
    split at heq
    · exact .inl ⟨List.mem_of_find?_eq_some heq, by simpa using List.find?_some heq⟩
    · cases heq
  · split at h
    · rename_i heq
      cases h
      exact .inr ⟨List.mem_of_find?_eq_some heq, List.find?_some heq⟩
    · cases h

theorem ppageAlloc_cases {t : PpStatus} {r : Except Errno Nat}
    (h : ppageAlloc m t userreq = (r, m')) :
    (∃ e, r = .error e ∧ m' = m) ∨
      ∃ p, r = .ok p ∧ ppageFindFree m userreq = .ok p ∧ m' = ppageReclaim m p t := by
  unfold ppageAlloc at h
  split at h
  · cases h
    exact .inl ⟨_, rfl, rfl⟩
  · rename_i hf
    cases h
    exact .inr ⟨_, rfl, hf, rfl⟩

/-- A `malloc` uses up one of the answers, and takes at most one page. -/
theorem kmalloc_cases {ok : Bool} (h : kmalloc m = (ok, m')) :
    ∃ f, m' = { m with mallocs := f } ∨ ∃ p, ppageFindFree { m with mallocs := f } false = .ok p ∧
      m' = ppageReclaim { m with mallocs := f } p .kernel := by
  refine ⟨fun n => m.mallocs (n + 1), ?_⟩
  unfold kmalloc at h
  dsimp only at h
  split at h
  · cases h
    exact .inl rfl
  split at h
  all_goals
    rename_i halloc
    cases h
    rcases ppageAlloc_cases halloc with ⟨-, -, rfl⟩ | ⟨p, -, hf, rfl⟩
    · exact .inl rfl
    · exact .inr ⟨p, hf, rfl⟩

end

/-! ## 7. Filling the cache -/

/-- `bc_alloc_bufs`: a window page of fresh headers, pushed in ascending order. -/
def bcAllocBufs (m : Mem) : Except Errno Unit × Mem :=
  if 1024 ≤ m.bcNextPage then (.error .vspace, m)
  else
    match ppageAlloc m .kernro false with
    | (.error _, m) => (.error .noMem, m)
    | (.ok p, m) =>
      let fresh := (List.range headersPerPage).map (m.bcNextPage * headersPerPage + ·)
      (.ok (), { m with
          bcUpt := Function.update m.bcUpt m.bcNextPage (BitVec.ofNat 32 (p * 4096 + 7))
          bcFreeList := fresh.reverse ++ m.bcFreeList
          bufs := fun b =>
            if b / headersPerPage = m.bcNextPage then { m.bufs b with state := bcEmpty }
            else m.bufs b
          bcNextPage := m.bcNextPage + 1 })

/-- The second half of `bc_insert64`: fill in header `buf`, the head of the free
    list, and link it. -/
def bcFill (m : Mem) (buf : Nat) (dev : BitVec 32) (blk : BitVec 64) (ppn : Nat)
    (state : BitVec 8) : Mem :=
  let m := { m with bcFreeList := m.bcFreeList.erase buf }
  let m := m.modBuf buf fun b =>
    { b with
      dev := dev, blk64 := blk, ppn := ppn
      state := bcValid ||| state.setWidth 32
      writecnt := 0, dirty := false, tainted := false, user1 := 0, user2 := 0 }
  let m := m.modPage ppn fun pp =>
    { pp with buf := some buf, acl := aclInit pp.acl pp.acl.length }
  let q := bcHash64 dev blk
  { m with bcQs := Function.update m.bcQs q (buf :: m.bcQs q) }

/-- `bc_insert64`. A buffer already on the page is forgotten by the page. -/
def bcInsert64 (m : Mem) (dev : BitVec 32) (blk : BitVec 64) (ppn : Nat) (state : BitVec 8) :
    Except Errno Nat × Mem :=
  if m.nppage ≤ ppn then (.error .inval, m)
  else
    match m.bcFreeList with
    | buf :: _ => (.ok buf, bcFill m buf dev blk ppn state)
    | [] =>
      match bcAllocBufs m with
      | (.error e, m) => (.error e, m)
      | (.ok (), m) =>
        match m.bcFreeList with
        | buf :: _ => (.ok buf, bcFill m buf dev blk ppn state)
        | [] => (.error .noMem, { m with panicked := true })

/-- `bc_lookup64`. -/
def bcLookup64 (m : Mem) (dev : BitVec 32) (blk : BitVec 64) : Option Nat :=
  (m.bcQs (bcHash64 dev blk)).find? fun b =>
    (m.bufs b).blk64 = blk && (m.bufs b).dev = dev

/-- `ppage_get_reclaimable_buffer`. -/
def ppageGetReclaimableBuffer (m : Mem) (dev : BitVec 32) (blk : BitVec 64)
    (bcState : BitVec 8) (userreq : Bool) : Except Errno Nat × Mem :=
  match ppageAlloc m .user userreq with
  | (.error e, m) => (.error e, m)
  | (.ok p, m) =>
    match bcInsert64 m dev blk p bcState with
    | (.error e, m) => (.error e, ppageFree m p)
    | (.ok b, m) => (.ok b, ppageFree m p)

theorem ppageGetReclaimableBuffer_cases {m m' : Mem} {dev : BitVec 32} {blk : BitVec 64}
    {state : BitVec 8} {userreq : Bool} {r : Except Errno Nat}
    (h : ppageGetReclaimableBuffer m dev blk state userreq = (r, m')) :
    (∃ e, r = .error e ∧ ppageAlloc m .user userreq = (.error e, m')) ∨
      ∃ p m₁ m₂, ppageAlloc m .user userreq = (.ok p, m₁) ∧
        bcInsert64 m₁ dev blk p state = (r, m₂) ∧ m' = ppageFree m₂ p := by
  unfold ppageGetReclaimableBuffer at h
  split at h
  · rename_i e m₁ ha
    cases h
    exact .inl ⟨e, rfl, ha⟩
  · rename_i p m₁ ha
    refine .inr ⟨p, m₁, ?_⟩
    split at h
    · rename_i hi
      cases h
      exact ⟨_, ha, hi, rfl⟩
    · rename_i hi
      cases h
      exact ⟨_, ha, hi, rfl⟩

/-- `ppage_pin`. -/
def ppagePin (m : Mem) (p : Nat) : Mem := m.modPage p fun pp => { pp with pinned := pp.pinned + 1 }

/-- `ppage_unpin`. -/
def ppageUnpin (m : Mem) (p : Nat) : Mem :=
  (m.assert (decide (0 < (m.pages p).pinned))).modPage p fun pp => { pp with pinned := pp.pinned - 1 }

/-- `bc_flush_by_buf`. -/
def bcFlushByBuf (m : Mem) (buf : Option Nat) : Mem :=
  match buf with
  | none => m
  | some b =>
    let p := (m.bufs b).ppn
    let m := m.assert ((m.pages p).status = .free || (m.pages p).status = .user)
    if (m.pages p).status = .user ∨ (m.pages p).pinned ≠ 0 ∨ (m.bufs b).dirty then m
    else ppageFreeBufs2FreeList m p

end Exokernel
