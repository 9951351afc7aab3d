import Exokernel.Cffs.Bufcache

/-!
# Block pointers and the allocation map — `serv_fsupdate_setptr` and its neighbours

The map has a byte for each block of the partition. A pointer field of an inode or of an indirect
block changes only through `serv_fsupdate_setptr`, which keeps the map in step: a block that a
pointer is given gets marked, a block that is given up is marked free.

The six actions of a request share two pieces of code at its end. The first marks the new block,
the second frees the old one, and only after both is the pointer written. **The first has already
stored into the map when the second refuses.**
-/
set_option autoImplicit false

namespace Exokernel
namespace Cffs

/-! ## 1. Bytes of the map — `cffs_alloc.h` -/

def allocmapFree : BitVec 8 := 0
def allocmapInuse : BitVec 8 := 1
def allocmapNotcffs : BitVec 8 := 2

/-! ## 2. One pointer -/

inductive SetptrAction where
  | allocate | deallocate | replace | nullify | externalAlloc | externalFree
  | unknown
deriving DecidableEq

/-- `CFFS_SETPTR_EXTERNALALLOC` and `CFFS_SETPTR_EXTERNALFREE`, which have no pointer. -/
def SetptrAction.isExternal : SetptrAction → Bool
  | .externalAlloc | .externalFree => true
  | _ => false

/-- `struct cffsd_fsupdate_setptr_arg`. -/
structure SetptrArg where
  sb : BcRef
  dinode : BcRef
  allocmap : BcRef
  ptrloc : BcRef
  val : BitVec 32

/-- `*ptrloc`. -/
def ptr (s : Store Blk) (r : BcRef) : BitVec 32 := s.ld32 r.blk r.off

/-- `sb->numalloced` and `sb->quota`. -/
def sbNumalloced (s : Store Blk) (sb : BcRef) : BitVec 32 := s.ld32 sb.blk (sb.off + 88)
def sbQuota (s : Store Blk) (sb : BcRef) : BitVec 32 := s.ld32 sb.blk (sb.off + 92)

/-- `allocMap[blkno]`, with `blkno = val % BLOCK_SIZE`. -/
def mapAt (s : Store Blk) (arg : SetptrArg) (val : BitVec 32) : BitVec 8 :=
  s arg.allocmap.blk (arg.allocmap.off + val.toNat % blockSize)

/-- `allocMap[blkno] = x`. -/
def setMapAt (s : Store Blk) (arg : SetptrArg) (val : BitVec 32) (x : BitVec 8) : Store Blk :=
  s.st8 arg.allocmap.blk (arg.allocmap.off + val.toNat % blockSize) x

/-- The tests on the values, for the four actions that have a pointer. The result is the value
    that will be stored. -/
def setptrCheck (s : Store Blk) (action : SetptrAction) (arg : SetptrArg) :
    Except CffsErr (BitVec 32) :=
  let old := ptr s arg.ptrloc
  match action with
  | .allocate =>
    -- fsck passes the value that is already there
    if arg.val = 0 ∨ (old ≠ 0 ∧ old ≠ arg.val) then .error .inval
    else if sbQuota s arg.sb ≠ 0 ∧ sbQuota s arg.sb < sbNumalloced s arg.sb + 1 then .error .quota
    else .ok arg.val
  | .deallocate => if arg.val ≠ 0 ∨ old = 0 then .error .inval else .ok arg.val
  | .replace =>
    if arg.val = 0 ∨ old = 0 then .error .inval
    else if old.toNat / blockSize ≠ arg.val.toNat / blockSize then .error .inval
    else .ok arg.val
  | .nullify => .ok 0
  | _ => .error .inval

/-- The first piece at the end: mark the new block. -/
def setptrTake (s : Store Blk) (action : SetptrAction) (arg : SetptrArg) :
    Except CffsErr Unit × Store Blk :=
  if action = .allocate ∨ action = .replace then
    if mapAt s arg arg.val = allocmapInuse then (.error .exists, s)
    else (.ok (), setMapAt s arg arg.val allocmapInuse)
  else (.ok (), s)

/-- The second piece: free the old block. -/
def setptrGive (s : Store Blk) (action : SetptrAction) (arg : SetptrArg) :
    Except CffsErr Unit × Store Blk :=
  if action = .deallocate ∨ action = .replace then
    let old := ptr s arg.ptrloc
    if mapAt s arg old ≠ allocmapInuse then (.error .inval, s)
    else (.ok (), setMapAt s arg old allocmapFree)
  else (.ok (), s)

/-- `serv_fsupdate_setptr`. -/
def servFsupdateSetptr (resident : Blk → Bool) (s : Store Blk) (action : SetptrAction)
    (arg : SetptrArg) : Except CffsErr Unit × Store Blk :=
  let missing (r : BcRef) : Bool := (translateAddress resident r).isNone
  if (!action.isExternal && (missing arg.dinode || missing arg.ptrloc))
      || (action != .nullify && missing arg.allocmap) || missing arg.sb then
    (.error .inval, s)
  else
    match action with
    | .externalAlloc =>
      if mapAt s arg arg.val = allocmapInuse then (.error .inval, s)
      else (.ok (), setMapAt s arg arg.val allocmapInuse)
    | .externalFree =>
      if mapAt s arg arg.val = allocmapFree then (.error .inval, s)
      else (.ok (), setMapAt s arg arg.val allocmapFree)
    | action =>
      match setptrCheck s action arg with
      | .error e => (.error e, s)
      | .ok val =>
        match setptrTake s action arg with
        | (.error e, s) => (.error e, s)
        | (.ok (), s) =>
          match setptrGive s action arg with
          | (.error e, s) => (.error e, s)
          | (.ok (), s) => (.ok (), s.st32 arg.ptrloc.blk arg.ptrloc.off val)

/-! ## 3. Whole blocks of the map

The server asks the kernel for the micropartition first. The results of those calls come with
the request here. -/

/-- `CFFSD_MAX_INITALLOC_SZ`, `CFFSD_MAX_ALLOCMICROPART_SZ`, `FREEMAP_PAGES_PER_MICROPART`. -/
def maxInitallocSz : Int := 256
def maxAllocmicropartSz : Int := 4
def freemapPagesPerMicropart : Nat := 2

/-- `struct cffsd_fsupdate_initAllocMap_arg`. -/
structure InitAllocMapArg where
  allocmap : Nat → BcRef
  count : BitVec 32
  deadcnt : BitVec 32

/-- What `sys_micropart_free`, `_init`, `_bootfs` and `_alloc` return. -/
structure MicropartRets where
  free : Int
  init : Int
  bootfs : Int
  alloc : Int

/-- What round `i` stores into a block of the map. -/
def initAllocMapBlock (s : Store Blk) (r : BcRef) (i deadcnt : Nat) : Store Blk :=
  if i < freemapPagesPerMicropart then
    let s := s.blit r.blk r.off blockSize fun _ => allocmapFree
    if i = 0 then
      let s := s.blit r.blk r.off 100 fun _ => allocmapInuse
      s.blit r.blk r.off deadcnt fun _ => allocmapInuse
    else s
  else s.blit r.blk r.off blockSize fun _ => allocmapNotcffs

/-- `n` rounds from `i` on. -/
def initAllocMapLoop (resident : Blk → Bool) (arg : InitAllocMapArg) :
    Nat → Nat → Store Blk → Except CffsErr Unit × Store Blk
  | 0, _, s => (.ok (), s)
  | n + 1, i, s =>
    match translateAddress resident (arg.allocmap i) with
    | none => (.error .inval, s)
    | some r =>
      initAllocMapLoop resident arg n (i + 1)
        (initAllocMapBlock s r i arg.deadcnt.toInt.toNat)

/-- `serv_fsupdate_initAllocMap`. There is no result if `deadcnt` leads past the block. -/
def servFsupdateInitAllocMap (resident : Blk → Bool) (s : Store Blk) (arg : InitAllocMapArg)
    (k : MicropartRets) : Option (Except CffsErr Unit × Store Blk) :=
  if maxInitallocSz ≤ arg.count.toInt then some (.error .inval, s)
  else if k.free < 0 ∨ k.init < 0 ∨ k.bootfs < 0 ∨ k.alloc < 0 then some (.error .inval, s)
  else if (blockSize : Int) < arg.deadcnt.toInt then none
  else some (initAllocMapLoop resident arg arg.count.toInt.toNat 0 s)

/-- `struct cffsd_fsupdate_allocMicropart_arg`. -/
structure AllocMicropartArg where
  allocmap : Nat → BcRef
  count : BitVec 32
  micropart : BitVec 32

/-- `n` rounds from `i` on. -/
def allocMicropartLoop (resident : Blk → Bool) (arg : AllocMicropartArg) :
    Nat → Nat → Store Blk → Except CffsErr Unit × Store Blk
  | 0, _, s => (.ok (), s)
  | n + 1, i, s =>
    match translateAddress resident (arg.allocmap i) with
    | none => (.error .inval, s)
    | some r =>
      allocMicropartLoop resident arg n (i + 1)
        (s.blit r.blk r.off blockSize fun _ => allocmapFree)

/-- `serv_fsupdate_allocMicropart`, with what `sys_micropart_alloc` returns. -/
def servFsupdateAllocMicropart (resident : Blk → Bool) (s : Store Blk) (arg : AllocMicropartArg)
    (ret : Int) : Except CffsErr Unit × Store Blk :=
  if maxAllocmicropartSz ≤ arg.count.toInt then (.error .inval, s)
  else if ret < 0 then (.error (.kernel ret), s)
  else allocMicropartLoop resident arg arg.count.toInt.toNat 0 s

end Cffs
end Exokernel
