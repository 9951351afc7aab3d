import Exokernel.Xn.Dependency

/-!
# The registry — `ubb/registry.c`, `ubb/rules.c` and `ubb/iov.c`

The registry has an entry for every disk block that XN knows about: what object it is a
block of, where the pointer to it is, and whether it is locked, initialised or dirty.
`rules.c` decides what may happen to a block, `iov.c` locks blocks for I/O and unlocks
them.

**Every block of an object carries the descriptor of the whole object.** The size that
`rules_can_write` and `rules_allocate` work with is therefore the object's size, counted
from each of its blocks.
-/
set_option autoImplicit false

namespace Exokernel.Xn

/-! ## 1. Addresses — `ubb/kernel/virtual-disk.h` -/

/-- A disk block (`db_t`) and a byte on the disk (`da_t`). -/
abbrev Db := Nat
abbrev Da := Nat

/-- `XN_BLOCK_SIZE`, `XN_SECTOR_SIZE` and `XN_NBLOCKS`. -/
abbrev blockBytes : Nat := 4096
abbrev sectorBytes : Nat := 512
abbrev xnNblocks : Nat := 196608

/-- `db_to_sec`. -/
def dbToSec (db : Db) : Sec := db * 8

/-- `da_to_db`. -/
def daToDb (da : Da) : Db := da / blockBytes

/-- `da_to_offset`. -/
def daToOffset (da : Da) : Nat := da % blockBytes

/-- `da_to_sec`. -/
def daToSec (da : Da) : Sec := dbToSec (daToDb da)

/-- `bytes_to_blocks` and `bytes_to_secs`; `roundup` wraps around. -/
def bytesToBlocks (x : Nat) : Nat := (x + (blockBytes - 1)) % 2 ^ 32 / blockBytes

def bytesToSecs (x : Nat) : Nat := (x + (sectorBytes - 1)) % 2 ^ 32 / sectorBytes

/-- `blocks_to_secs`. -/
def blocksToSecs (n : Nat) : Nat := n * 8

/-! ## 2. Entries -/

/-- `xn_elem_t`: `XN_NIL`, `XN_ROOT_TYPE`, `XN_TYPE_TYPE`, `XN_BYTES`, `XN_DB`, and above
    them the types of users. -/
abbrev XnElem := BitVec 32

/-- `XN_DB`. -/
def xnDb : XnElem := 4

/-- `struct xr_td`. -/
structure Td where
  type : XnElem
  base : Db
  nelem : Nat
  size : Nat
deriving DecidableEq, Repr

/-- `td.size * td.nelem`, a `size_t`. -/
def Td.bytes (td : Td) : Nat := td.size * td.nelem % 2 ^ 32

/-- The number of sectors of the object, as `rules.c` computes it. -/
def Td.nsecs (td : Td) : Nat := bytesToSecs td.bytes

/-- Metadata: anything but `XN_DB`. -/
def Td.isMeta (td : Td) : Bool := td.type ≠ xnDb

/-- `struct xr`. `bound` says that `bc` and `page` are set; `vKids` are the blocks on the
    list `v_kids`. Nothing is ever put on `s_kids`. -/
structure Xr where
  td : Td
  p : Da
  pSec : Sec
  bound : Bool
  locked : Bool
  initialized : Bool
  dirty : Bool
  vKids : List Db
deriving DecidableEq, Repr

/-- `xr_new`. -/
def xrNew (td : Td) (parent : Da) (sec : Sec) : Xr where
  td := td
  p := parent
  pSec := sec
  bound := false
  locked := false
  initialized := false
  dirty := true
  vKids := []

/-- The stores of `rules.c`, `iov.c` and `registry.c` into an entry: it has been written, it
    is unlocked or locked, it loses its page, it gets a kid, another parent, it is dirty. -/
def Xr.written (x : Xr) : Xr := { x with dirty := false, initialized := true }

def Xr.unlock (x : Xr) : Xr := { x with locked := false }

def Xr.lock (x : Xr) : Xr := { x with locked := true }

def Xr.unbind (x : Xr) : Xr := { x with bound := false }

def Xr.setParent (p : Da) (x : Xr) : Xr := { x with p := p }

def Xr.setDirty (x : Xr) : Xr := { x with dirty := true }

def Xr.addKid (b : Db) (x : Xr) : Xr := { x with vKids := b :: x.vKids }

/-- The registry, the dependencies and the freemap (`used` is a bit that is set). -/
structure Reg where
  xr : Db → Option Xr
  deps : Deps
  used : Db → Bool

/-- `xr_lookup`. -/
def xrLookup (r : Reg) (db : Db) : Option Xr := if db = 0 then none else r.xr db

/-- A store into an entry, if there is one. -/
def Reg.mod (r : Reg) (db : Db) (f : Xr → Xr) : Reg :=
  { r with xr := Function.update r.xr db ((r.xr db).map f) }

/-- Another graph. -/
def Reg.setDeps (r : Reg) (deps : Deps) : Reg := { r with deps }

/-- The blocks `[db, db+n)`. -/
def blocks (db n : Nat) : List Db := List.range' db n

/-! ## 3. The freemap — `ubb/kernel/real-kernel.c` -/

/-- `db_isfree`. -/
def dbIsfree (r : Reg) (base n : Nat) : Bool :=
  decide (base + n ≤ xnNblocks) && (blocks base n).all fun b => !r.used b

/-- `db_free` of one block. A block that is free already is a failed `demand`. -/
def dbFree (r : Reg) (db : Db) : Option Reg :=
  if dbIsfree r db 1 then none else some { r with used := Function.update r.used db false }

/-- `db_alloc`. -/
def dbAlloc (r : Reg) (base n : Nat) : Option Reg :=
  if dbIsfree r base n then
    some { r with used := fun b => if base ≤ b ∧ b < base + n then true else r.used b }
  else none

/-! ## 4. Rules — `ubb/rules.c` -/

/-- `rules_can_write`, for the entry of block `db`. -/
def rulesCanWrite (d : Deps) (db : Db) (n : Xr) : Except XnErr Unit :=
  sysSecCanWriteR d (dbToSec db) n.td.nsecs

/-- `rules_allocate`, for the entry of block `db` below that of block `p`. -/
def rulesAllocate (p : Db) (r : Reg) (db : Db) : Reg :=
  let r := r.mod p (Xr.addKid db)
  match r.xr db with
  | none => r
  | some n =>
    if n.td.isMeta then r.setDeps (secDependR r.deps n.pSec (dbToSec db) n.td.nsecs) else r

/-- `rules_written`, for the entry of block `e`. -/
def rulesWritten (r : Reg) (e db : Db) (nblocks : Nat) : Except XnErr Unit × Reg :=
  let res := secWrittenR r.deps (dbToSec db) (blocksToSecs nblocks)
  (res.1, (r.mod e Xr.written).setDeps res.2)

/-- `rules_flush_entry`. -/
def rulesFlushEntry (r : Reg) (db : Db) (n : Xr) : Except XnErr Unit × Reg :=
  match rulesCanWrite r.deps db n with
  | .error e => (.error e, r)
  | .ok () =>
    match rulesWritten r db db (bytesToBlocks n.td.bytes) with
    | (.error e, r) => (.error e, r)
    | (.ok (), r) => (.ok (), r.mod db Xr.unbind)

/-- `l_remove (n, sib)`: block `db` leaves the list it is on. -/
def unlinkKid (r : Reg) (db : Db) : Reg :=
  { r with xr := fun b => (r.xr b).map fun x => { x with vKids := x.vKids.erase db } }

/-- `xr_del`; with `freedb` the block is freed on the disk too. -/
def xrDel (r : Reg) (db : Db) (freedb : Bool) : Option Reg :=
  (if freedb then dbFree r db else some r).map fun r =>
    { r with xr := Function.update r.xr db none }

/-- `rules_free`. -/
def rulesFree (r : Reg) (db : Db) (n : Xr) : Option (Except XnErr Unit × Reg) :=
  if n.vKids ≠ [] then some (.error .cannotDelete, r)
  else
    match rulesCanWrite r.deps db n with
    | .error e => some (.error e, r)
    | .ok () =>
      match rulesWritten r db db (bytesToBlocks n.td.bytes) with
      | (.error e, r) => some (.error e, r)
      | (.ok (), r) => (xrDel (unlinkKid r db) db true).map fun r => (.ok (), r)

/-! ## 5. Entries come and go — `ubb/registry.c` -/

/-- `xr_insert`; `mem` says whether there is memory for the entry. -/
def xrInsert (r : Reg) (db : Db) (td : Td) (parent : Da) (sec : Sec) (mem : Bool) :
    Except XnErr Reg :=
  match xrLookup r db with
  | some x => if x.p ≠ parent then .error .bogusEntry else .error .registryHit
  | none =>
    if !mem then .error .outOfMemory
    else .ok { r with xr := Function.update r.xr db (some (xrNew td parent sec)) }

/-- The first loop of `xr_alloc`. After a failure the entries that were made are
    removed, the last one first. -/
def insertAll (td : Td) (parent : Da) (sec : Sec) (mem : Db → Bool) :
    List Db → List Db → Reg → Except XnErr Unit × Reg
  | [], _, r => (.ok (), r)
  | b :: bs, made, r =>
    match xrInsert r b td parent sec (mem b) with
    | .ok r => insertAll td parent sec mem bs (b :: made) r
    | .error e =>
      (.error e, made.foldl (fun r b => { r with xr := Function.update r.xr b none }) r)

/-- `xr_alloc` for an allocation. A parent that is not in the registry is a failed
    `demand`. -/
def xrAlloc (r : Reg) (db : Db) (n : Nat) (td : Td) (parent : Da) (sec : Sec) (mem : Db → Bool) :
    Option (Except XnErr Unit × Reg) :=
  if db = 0 || (xrLookup r (daToDb parent)).isNone then none
  else
    match insertAll td parent sec mem (blocks db n) [] r with
    | (.error e, r) => some (.error e, r)
    | (.ok (), r) => some (.ok (), (blocks db n).foldl (rulesAllocate (daToDb parent)) r)

/-- The loop of `xr_flush`. -/
def flushAll : List Db → Reg → Except XnErr Unit × Reg
  | [], r => (.ok (), r)
  | b :: bs, r =>
    match xrLookup r b with
    | none => flushAll bs r
    | some n =>
      match rulesFlushEntry r b n with
      | (.error e, r) => (.error e, r)
      | (.ok (), r) => flushAll bs r

/-- `xr_flush`. -/
def xrFlush (r : Reg) (db : Db) (nblocks : Nat) : Except XnErr Unit × Reg :=
  flushAll (blocks db nblocks) r

/-- The loop of `xr_delete`. What was deleted before a failure stays deleted. -/
def deleteAll : List Db → Reg → Option (Except XnErr Unit × Reg)
  | [], r => some (.ok (), r)
  | b :: bs, r =>
    match xrLookup r b with
    | none => some (.error .registryMiss, r)
    | some n =>
      match rulesFree r b n with
      | none => none
      | some (.error e, r) => some (.error e, r)
      | some (.ok (), r) => deleteAll bs r

/-- `xr_delete`. -/
def xrDelete (r : Reg) (db : Db) (nblocks : Nat) : Option (Except XnErr Unit × Reg) :=
  deleteAll (blocks db nblocks) r

/-! ## 6. I/O — `ubb/iov.c` -/

/-- `xr_post_io` after a write. -/
def postWrite (r : Reg) (b : Db) : Reg :=
  match xrLookup r b with
  | none => r
  | some _ => (rulesWritten (r.mod b Xr.unlock) b b 1).2

/-- `xr_post_io`. -/
def xrPostIo (r : Reg) (db : Db) (nblocks : Nat) (writep : Bool) : Reg :=
  if writep then (blocks db nblocks).foldl postWrite r
  else (blocks db nblocks).foldl (fun r b => r.mod b Xr.unlock) r

/-- `iov_rollback`: all the blocks are unlocked, whoever has locked them. -/
def iovRollback (r : Reg) (bs : List Db) : Reg := bs.foldl (fun r b => r.mod b Xr.unlock) r

/-- The test of `xr_pre_io` for one block; `inBc` says that it is in the buffer cache. -/
def ioCheck (r : Reg) (writep : Bool) (inBc : Db → Bool) (b : Db) (x : Xr) : Except XnErr Unit :=
  if writep then rulesCanWrite r.deps b x
  else if inBc b then .error .inCore
  else if !x.initialized then .error .dirtyBlocks
  else .ok ()

/-- The loop of `xr_pre_io`. After a failure the blocks before, `done`, are unlocked. -/
def preIo (writep : Bool) (inBc : Db → Bool) : List Db → List Db → Reg → Except XnErr Unit × Reg
  | [], _, r => (.ok (), r)
  | b :: bs, done, r =>
    match xrLookup r b with
    | none => preIo writep inBc bs (done ++ [b]) r
    | some x =>
      match ioCheck r writep inBc b x with
      | .error e => (.error e, iovRollback r done)
      | .ok () => preIo writep inBc bs (done ++ [b]) (r.mod b Xr.lock)

/-- `xr_pre_io`. -/
def xrPreIo (r : Reg) (db : Db) (nblocks : Nat) (writep : Bool) (inBc : Db → Bool) :
    Except XnErr Unit × Reg :=
  preIo writep inBc (blocks db nblocks) [] r

/-- `xr_bwrite`; `bcWrite` says that `bc_write` has started the write. The comparison
    `bc_write (..) >= 0` is what is assigned to `res`, so that a failure gives 0, which is
    `XN_SUCCESS`. -/
def xrBwrite (r : Reg) (db : Db) (nblocks : Nat) (inBc : Db → Bool) (bcWrite : Bool) :
    Except XnErr Unit × Reg :=
  match xrPreIo r db nblocks true inBc with
  | (.error e, r) => (.error e, r)
  | (.ok (), r) => (.ok (), if bcWrite then r else iovRollback r (blocks db nblocks))

/-- `xr_bread`; `bcRead` says that `bc_read` has started the read. -/
def xrBread (r : Reg) (db : Db) (nblocks : Nat) (inBc : Db → Bool) (bcRead : Bool) :
    Except XnErr Unit × Reg :=
  match xrPreIo r db nblocks false inBc with
  | (.error e, r) => (.error e, r)
  | (.ok (), r) => if bcRead then (.ok (), r) else (.error .io, iovRollback r (blocks db nblocks))

/-! ## 7. Entries are found, made and removed -/

section Entries

variable {r r' : Reg} {b : Db}

@[simp] theorem Reg.deps_setDeps (d : Deps) : (r.setDeps d).deps = d := rfl

@[simp] theorem Reg.deps_mod (f : Xr → Xr) : (r.mod b f).deps = r.deps := rfl

@[simp] theorem unlinkKid_deps : (unlinkKid r b).deps = r.deps := rfl

theorem xrLookup_some {n : Xr} (h : xrLookup r b = some n) : b ≠ 0 ∧ r.xr b = some n := by
  unfold xrLookup at h
  split at h
  · cases h
  · exact ⟨‹_›, h⟩

theorem xrLookup_none (h : xrLookup r b = none) (hb : b ≠ 0) : r.xr b = none := by
  simpa [xrLookup, hb] using h

theorem xrInsert_ok {td : Td} {parent : Da} {sec : Sec} {mem : Bool} (hb : b ≠ 0)
    (h : xrInsert r b td parent sec mem = .ok r') :
    r.xr b = none
      ∧ r' = { r with xr := Function.update r.xr b (some (xrNew td parent sec)) } := by
  unfold xrInsert at h
  split at h
  · split at h <;> cases h
  rename_i hl
  split at h
  · cases h
  · cases h
    exact ⟨xrLookup_none hl hb, rfl⟩

theorem removeMade (r : Reg) (made : List Db) :
    made.foldl (fun r b => { r with xr := Function.update r.xr b none }) r
      = { r with xr := fun c => if c ∈ made then none else r.xr c } := by
  induction made generalizing r with
  | nil => simp
  | cons b made ih =>
    rw [List.foldl_cons, ih]
    congr 1
    funext c
    by_cases hc : c = b
    · simp [hc]
    · simp [hc]

/-- The registry with a new entry for each block of `l`. -/
def Reg.withNew (r : Reg) (td : Td) (parent : Da) (sec : Sec) (l : List Db) : Reg :=
  { r with xr := fun b => if b ∈ l then some (xrNew td parent sec) else r.xr b }

/-- **An insertion makes all the entries or leaves the registry as it was.** The induction is over
    the blocks still to be inserted; those that were inserted had no entry before. -/
theorem insertAll_cases {td : Td} {parent : Da} {sec : Sec} {mem : Db → Bool}
    {res : Except XnErr Unit} (bs made : List Db) (hmade : ∀ b ∈ made, r.xr b = none)
    (hbs : ∀ b ∈ bs, b ≠ 0)
    (h : insertAll td parent sec mem bs made (r.withNew td parent sec made) = (res, r')) :
    (res = .ok () ∧ (∀ b ∈ bs, r.xr b = none) ∧
      r' = r.withNew td parent sec (bs.reverse ++ made)) ∨ ∃ e, res = .error e ∧ r' = r := by
  induction bs generalizing made with
  | nil =>
    cases h
    exact .inl ⟨rfl, by simp, rfl⟩
  | cons b bs ih =>
    unfold insertAll at h
    cases hx : xrInsert (r.withNew td parent sec made) b td parent sec (mem b) with
    | error e =>
      simp only [hx, removeMade] at h
      cases h
      have hxr : (fun c => if c ∈ made then none
          else (r.withNew td parent sec made).xr c) = r.xr := by
        funext c
        by_cases hc : c ∈ made
        · simp [hc, hmade c hc]
        · simp [Reg.withNew, hc]
      exact .inr ⟨e, rfl, by rw [hxr]; rfl⟩
    | ok r₁ =>
      simp only [hx] at h
      obtain ⟨hnone, rfl⟩ := xrInsert_ok (hbs b (by simp)) hx
      have hb : r.xr b = none := by
        by_cases hm : b ∈ made
        · exact hmade b hm
        · simpa [Reg.withNew, hm] using hnone
      have hnew : Function.update (r.withNew td parent sec made).xr b (some (xrNew td parent sec))
          = (r.withNew td parent sec (b :: made)).xr := by
        funext c
        by_cases hc : c = b
        · simp [Reg.withNew, hc]
        · simp [Reg.withNew, hc]
      rw [hnew] at h
      rcases ih (b :: made) (by simpa using ⟨hb, hmade⟩)
        (fun c hc => hbs c (List.mem_cons_of_mem _ hc)) h with ⟨hres, hall, hr⟩ | herr
      · exact .inl ⟨hres, by simpa using ⟨hb, hall⟩, by simpa using hr⟩
      · exact .inr herr

/-- `xr_alloc` makes entries for all the blocks and then tells their parent, or it leaves the
    registry alone. -/
theorem xrAlloc_some {db n : Nat} {td : Td} {parent : Da} {sec : Sec} {mem : Db → Bool}
    {res : Except XnErr Unit} (h : xrAlloc r db n td parent sec mem = some (res, r')) :
    (res = .ok () ∧ (xrLookup r (daToDb parent)).isSome ∧
      (∀ b ∈ blocks db n, b ≠ 0 ∧ r.xr b = none) ∧
      r' = (blocks db n).foldl (rulesAllocate (daToDb parent))
        (r.withNew td parent sec (blocks db n))) ∨ ∃ e, res = .error e ∧ r' = r := by
  unfold xrAlloc at h
  split at h
  · cases h
  rename_i hdb
  simp only [Bool.or_eq_true, decide_eq_true_eq, not_or, Bool.not_eq_true,
    Option.isNone_eq_false_iff] at hdb
  have hbs : ∀ b ∈ blocks db n, b ≠ 0 := fun b hb hb0 => by
    have hle : db ≤ b := (List.mem_range'_1.mp hb).1
    exact hdb.1 (Nat.le_zero.mp (hb0 ▸ hle))
  have hno : r.withNew td parent sec [] = r := by simp [Reg.withNew]
  cases hi : insertAll td parent sec mem (blocks db n) [] r with
  | mk res₁ r₁ =>
    rw [hi] at h
    rw [← hno] at hi
    rcases insertAll_cases _ [] (by simp) hbs hi with ⟨rfl, hnone, rfl⟩ | ⟨e, rfl, rfl⟩
    · cases h
      exact .inl ⟨rfl, hdb.2, fun b hb => ⟨hbs b hb, hnone b hb⟩, by simp [Reg.withNew]⟩
    · cases h
      exact .inr ⟨e, rfl, rfl⟩

end Entries

end Exokernel.Xn
