import Exokernel.Cffs.Bufcache

/-!
# Directory blocks — `serv_fsupdate_directory`

A directory block is eight sectors of 512 bytes. The first 128 bytes of a sector hold entries, one
after the other: each says how long it is and how long the one before it was. The other 384 bytes
are three inodes, so that a file and its name can be in one sector.

A client names an entry by its address. The server walks the sector from its beginning to see
whether there is an entry at that address, and then does one of six things to it. **It walks with
the lengths that it finds**, so an entry of length zero keeps it walking for ever, and what a
request may do to a length decides whether the next request is answered at all.

The server is stopped in three ways: it does not leave a loop, it follows the null pointer that
`translate_address` returns for a block that is not in the cache, or an assertion fails.
-/
set_option autoImplicit false

namespace Exokernel
namespace Cffs

inductive Stop where
  | spins | fault | assert
deriving DecidableEq

/-! ## 1. Entries and inodes — `cffs_embdir.h`, `cffs_dinode.h` -/

/-- `CFFS_EMBDIR_SECTOR_SIZE`, `CFFS_EMBDIR_SECTOR_SPACEFORNAMES`, `SIZEOF_EMBDIRENT_T`,
    `SIZEOF_PREHELD_NAME`, `CFFS_DINODE_SIZE`. -/
abbrev sectorSize : Nat := 512
abbrev sectorSpacefornames : Nat := 128
abbrev sizeofEmbdirent : Nat := 32
abbrev sizeofPreheldName : Nat := 24
abbrev dinodeSize : Nat := 128

/-- The fields of the entry at an offset of a block. -/
def entryLen (s : Store Blk) (k : Blk) (a : Nat) : Nat := (s k a).toNat
def preventryLen (s : Store Blk) (k : Blk) (a : Nat) : BitVec 8 := s k (a + 1)
def entryType (s : Store Blk) (k : Blk) (a : Nat) : BitVec 8 := s k (a + 2)
def nameLen (s : Store Blk) (k : Blk) (a : Nat) : Nat := (s k (a + 3)).toNat
def inodeNum (s : Store Blk) (k : Blk) (a : Nat) : BitVec 32 := s.ld32 k (a + 4)
def entryName (s : Store Blk) (k : Blk) (a : Nat) : Nat → BitVec 8 := fun x => s k (a + 8 + x)

/-- `embdirentsize`, of an entry with a name of this length. -/
def embdirentsize (namelen : Nat) : Nat :=
  sizeofEmbdirent +
    if namelen ≤ sizeofPreheldName then 0 else (namelen + 1 + 3 - sizeofPreheldName) / 4 * 4

/-- The fields of the inode at a reference. -/
def dinodeNum (s : Store Blk) (r : BcRef) : BitVec 32 := s.ld32 r.blk r.off
def dinodeType (s : Store Blk) (r : BcRef) : BitVec 16 := s.ld16 r.blk (r.off + 12)
def linkCount (s : Store Blk) (r : BcRef) : BitVec 16 := s.ld16 r.blk (r.off + 24)
def directBlock (s : Store Blk) (r : BcRef) (i : Nat) : BitVec 32 :=
  s.ld32 r.blk (r.off + 40 + 4 * i)
def dirNum (s : Store Blk) (r : BcRef) : BitVec 32 := s.ld32 r.blk (r.off + 112)

def setLinkCount (s : Store Blk) (r : BcRef) (x : BitVec 16) : Store Blk :=
  s.st16 r.blk (r.off + 24) x

/-- `S_IFDIR`, `NUM_DIRECT`, `CFFS_DINODE_MEMORYSANITY`. -/
def sIfdir : BitVec 16 := 0x4000
def numDirect : Nat := 15
def memorySanity : BitVec 32 := 0xd1d0de77

/-- `cffs_dinode_isDir`. -/
def isDir (s : Store Blk) (r : BcRef) : Bool := dinodeType s r == sIfdir

/-! ## 2. Walks over a sector

A walk that moves on by at least one byte each time is at its end after 128 rounds. One that is
not has come to an entry of length zero. -/

def walkRounds : Nat := sectorSpacefornames + 1

def isValidDirentLoop (s : Store Blk) (r : BcRef) (sector : Nat) : Nat → Nat → Except Stop Bool
  | 0, _ => .error .spins
  | n + 1, i =>
    if sectorSpacefornames ≤ i then .ok false
    else if sector + i = r.off then .ok true
    else isValidDirentLoop s r sector n (i + entryLen s r.blk (sector + i))

/-- `isValidDirent`. -/
def isValidDirent (s : Store Blk) (r : BcRef) : Except Stop Bool :=
  isValidDirentLoop s r (r.off / sectorSize * sectorSize) walkRounds 0

/-- The test on one entry in `nameconflict`. -/
def sameName (s : Store Blk) (k : Blk) (a : Nat) (name : Nat → BitVec 8) (namelen : Nat) : Bool :=
  namelen == nameLen s k a && name 0 == entryName s k a 0 && entryType s k a != 0 &&
    (List.range (nameLen s k a)).all fun x => entryName s k a x == name x

def sectorConflict (s : Store Blk) (k : Blk) (name : Nat → BitVec 8) (namelen sector : Nat) :
    Nat → Nat → Except Stop Bool
  | 0, _ => .error .spins
  | n + 1, j =>
    if sectorSpacefornames ≤ j then .ok false
    else if sameName s k (sector + j) name namelen then .ok true
    else sectorConflict s k name namelen sector n (j + entryLen s k (sector + j))

/-- `nameconflict`: the last `n` sectors of a block, from an offset on. -/
def nameconflict (s : Store Blk) (k : Blk) (name : Nat → BitVec 8) (namelen : Nat) :
    Nat → Nat → Except Stop Bool
  | 0, _ => .ok false
  | n + 1, i => do
    if ← sectorConflict s k name namelen i walkRounds 0 then return true
    nameconflict s k name namelen n (i + sectorSize)

/-- The last `n` direct blocks of an inode, from the `i`th on. -/
def isNameUniqueLoop (resident : Blk → Bool) (s : Store Blk) (fsdev : BitVec 32) (d : BcRef)
    (name : Nat → BitVec 8) (namelen : Nat) : Nat → Nat → Except Stop Bool
  | 0, _ => .ok true
  | n + 1, i =>
    let b := directBlock s d i
    if b = 0 then isNameUniqueLoop resident s fsdev d name namelen n (i + 1)
    else if resident ⟨fsdev, b⟩ then do
      if ← nameconflict s ⟨fsdev, b⟩ name namelen (blockSize / sectorSize) 0 then return false
      isNameUniqueLoop resident s fsdev d name namelen n (i + 1)
    else .ok false

/-- `isNameUnique`. -/
def isNameUnique (resident : Blk → Bool) (s : Store Blk) (fsdev : BitVec 32) (d : BcRef)
    (name : Nat → BitVec 8) (namelen : Nat) : Except Stop Bool :=
  isNameUniqueLoop resident s fsdev d name namelen numDirect 0

/-! ## 3. The six actions -/

/-- A request is answered with a number, which is zero but for `SPLITENTRY`, or refused. -/
abbrev Answer := Except CffsErr Nat × Store Blk

/-- `struct cffsd_fsupdate_directory_arg`. -/
structure DirectoryArg where
  dirent : BcRef
  param2 : BitVec 32
  refParam3 : BcRef
  refParam4 : BcRef
  uintParam3 : BitVec 32
  param5 : BitVec 32

section
variable (s : Store Blk) (k : Blk) (a : Nat)

/-- One sector of `CFFS_DIRECTORY_INITDIRBLOCK`. -/
def initSector : Store Blk :=
  let s := s.st8 k (a + 2) 0
  let s := s.st8 k a (BitVec.ofNat 8 sectorSpacefornames)
  let s := s.st8 k (a + 1) 0
  let s := s.st32 k (a + dinodeSize) 0
  let s := s.st32 k (a + 2 * dinodeSize) 0
  s.st32 k (a + 3 * dinodeSize) 0

/-- `n` sectors from an offset on. -/
def initSectors (k : Blk) : Nat → Nat → Store Blk → Store Blk
  | 0, _, s => s
  | n + 1, a, s => initSectors k n (a + sectorSize) (initSector s k a)

def initdirblock : Answer :=
  if a % blockSize ≠ 0 then (.error .inval, s)
  else (.ok 0, initSectors k (blockSize / sectorSize) a (s.zero k a blockSize))

/-- The space of an entry that its name does not need. -/
def extraspace : Int :=
  if entryType s k a = 0 then entryLen s k a
  else entryLen s k a - embdirentsize (nameLen s k a)

/-- Split an entry in two. The result is where the second one is: at the place of the first if
    that has nothing left. -/
def splitAt (splitspace : BitVec 8) : Nat × Store Blk :=
  let s := s.st8 k a (s k a - splitspace)
  let new := a + entryLen s k a
  let s := if new ≠ a then s.st8 k (new + 1) (s k a) else s
  let s := s.st8 k new splitspace
  let s := s.st8 k (new + 2) 0
  let s := s.st8 k (new + 3) 0
  let s := s.st8 k (new + 8) 0
  let next := new + entryLen s k new
  (new, if next % sectorSpacefornames ≠ 0 then s.st8 k (next + 1) splitspace else s)

/-- `CFFS_DIRECTORY_SPLITENTRY`. The length that is split off is compared as an `int` and stored
    as a byte. -/
def splitentry (splitspace : BitVec 32) : Answer :=
  let extra := extraspace s k a
  if extra < sizeofEmbdirent ∨ extra < splitspace.toInt then (.error .inval, s)
  else if splitspace = 0 then (.error .inval, s)
  else
    let (new, s) := splitAt s k a (splitspace.setWidth 8)
    (.ok new, s)

/-- The loop of `CFFS_DIRECTORY_MERGEENTRY`. It looks at the same entry in every round. -/
def mergeLoop (param2 : Nat) (maxleft : Int) : Nat → Nat → Except Stop Nat
  | 0, _ => .error .spins
  | n + 1, extra =>
    if extra < param2 ∧ (extra : Int) < maxleft then
      let next := a + entryLen s k a
      if entryType s k next ≠ 0 then .ok extra
      else mergeLoop param2 maxleft n (extra + entryLen s k next)
    else .ok extra

/-- Make an entry longer. -/
def mergeAt (extra : BitVec 8) : Store Blk :=
  let s := s.st8 k a (s k a + extra)
  let next := a + entryLen s k a
  if next % sectorSpacefornames ≠ 0 then s.st8 k (next + 1) (s k a) else s

/-- `CFFS_DIRECTORY_MERGEENTRY`. -/
def mergeentry (param2 : BitVec 32) : Except Stop Answer := do
  let maxleft : Int := sectorSpacefornames - (a % sectorSize : Nat)
  let extra ← mergeLoop s k a param2.toNat maxleft walkRounds 0
  if extra ≠ param2.toNat then return (.error .inval, s)
  return (.ok 0, mergeAt s k a (BitVec.ofNat 8 extra))

end

section
variable (resident : Blk → Bool) (s : Store Blk) (arg : DirectoryArg)

/-- `CFFS_DIRECTORY_SETNAME`, with what `cffsd_copyin` gets from the client. -/
def setname (copyin : Option (Nat → BitVec 8)) : Except Stop Answer :=
  let k := arg.dirent.blk
  let a : Nat := arg.dirent.off
  let namelen := arg.uintParam3.toNat
  if 256 < namelen then .ok (.error .inval, s)
  else
    match copyin, translateAddress resident arg.refParam4 with
    | some name, some d =>
      if dinodeNum s d = 0 then .ok (.error .inval, s)
      else do
        if entryType s k a ≠ 0 then
          if !(← isNameUnique resident s arg.param5 d name namelen) then
            return (.error .inval, s)
        let s := s.blit k (a + 8) namelen name
        return (.ok 0, s.st8 k (a + 3) (BitVec.ofNat 8 namelen))
    | _, _ => .ok (.error .inval, s)

/-- A live entry is made to point to another inode. -/
def relink (old new : BcRef) : Store Blk :=
  let s := setLinkCount s old (linkCount s old - 1)
  let s := setLinkCount s new (linkCount s new + 1)
  let s := s.st32 arg.dirent.blk (arg.dirent.off + 4) arg.param2
  s.st8 arg.dirent.blk (arg.dirent.off + 2) ((dinodeType s new >>> 8).setWidth 8)

/-- `CFFS_DIRECTORY_SETINODENUM`. -/
def setinodenum : Except Stop Answer :=
  let k := arg.dirent.blk
  let a : Nat := arg.dirent.off
  let num := arg.param2
  if entryType s k a = 0 then .ok (.ok 0, s.st32 k (a + 4) num)
  else if num = 0 then .ok (.error .inval, s)
  else if inodeNum s k a = 0 then .error .assert
  else
    match translateAddress resident arg.refParam3 with
    | none => .error .fault
    | some old =>
      if dinodeNum s old ≠ inodeNum s k a then .ok (.error .inval, s)
      else
        match translateAddress resident arg.refParam4 with
        | none => .error .fault
        | some new =>
          if dinodeNum s new ≠ num then .ok (.error .inval, s)
          else if dinodeType s old ≠ dinodeType s new ∧ (isDir s old ∨ isDir s new) then
            .ok (.error .inval, s)
          else if (linkCount s new).toInt < (if isDir s new then 2 else 1) then
            .ok (.error .inval, s)
          else .ok (.ok 0, relink s arg old new)

/-- A new inode, for the entry that is about to become live. -/
def initDinode (d parent : BcRef) : Store Blk :=
  let s := s.zero d.blk d.off dinodeSize
  let s := s.st32 d.blk (d.off + 124) memorySanity
  let s := s.st32 d.blk d.off (inodeNum s arg.dirent.blk arg.dirent.off)
  let s := s.st32 d.blk (d.off + 112) (dinodeNum s parent)
  s.st16 d.blk (d.off + 12) ((arg.param2 <<< 8).setWidth 16)

/-- A directory counts itself, and its parent counts it. -/
def createDinode (d parent : BcRef) : Store Blk :=
  let s := initDinode s arg d parent
  if isDir s d then
    let s := setLinkCount s d (linkCount s d + 1)
    setLinkCount s parent (linkCount s parent + 1)
  else s

/-- The end of every addition of a link. -/
def addLink (d : BcRef) : Store Blk :=
  let s := setLinkCount s d (linkCount s d + 1)
  s.st8 arg.dirent.blk (arg.dirent.off + 2) (arg.param2.setWidth 8)

/-- The entry becomes live: a new link to a file that exists, or a new file. -/
def settypeLink (d parent : BcRef) : Except Stop Answer := do
  let k := arg.dirent.blk
  let a : Nat := arg.dirent.off
  if !(← isNameUnique resident s arg.param5 parent (entryName s k a) (nameLen s k a)) then
    return (.error .inval, s)
  else if dinodeNum s d ≠ 0 then
    if (linkCount s d).toInt < (if isDir s d then 2 else 1) then return (.error .inval, s)
    else if isDir s d then return (.error .inval, s)
    else if (dinodeType s d).setWidth 32 ≠ arg.param2 <<< 8 then return (.error .inval, s)
    else return (.ok 0, addLink s arg d)
  else if k ≠ d.blk ∨ a / sectorSize ≠ d.off / sectorSize then return (.error .inval, s)
  else return (.ok 0, addLink (createDinode s arg d parent) arg d)

def removeLink (d parent : BcRef) : Store Blk :=
  let s := if isDir s d then setLinkCount s parent (linkCount s parent - 1) else s
  let s := s.st8 arg.dirent.blk (arg.dirent.off + 2) 0
  setLinkCount s d (linkCount s d - 1)

/-- The entry stops being live. -/
def settypeUnlink (d parent : BcRef) : Except Stop Answer :=
  if isDir s d ∧ dirNum s d ≠ dinodeNum s parent then .error .assert
  else .ok (.ok 0, removeLink s arg d parent)

/-- `CFFS_DIRECTORY_SETTYPE`. -/
def settype : Except Stop Answer :=
  let k := arg.dirent.blk
  let a : Nat := arg.dirent.off
  let type := arg.param2
  if (entryType s k a).setWidth 32 = type then .ok (.ok 0, s)
  else if entryType s k a ≠ 0 ∧ type ≠ 0 then .ok (.error .inval, s)
  else if type ≠ 0 ∧ inodeNum s k a = 0 then .ok (.error .inval, s)
  else
    match translateAddress resident arg.refParam3 with
    | none => .error .fault
    | some d =>
      if dinodeNum s d ≠ 0 ∧ dinodeNum s d ≠ inodeNum s k a then .ok (.error .inval, s)
      else
        match translateAddress resident arg.refParam4 with
        | none => .ok (.error .inval, s)
        | some parent =>
          if dinodeNum s parent = 0 then .ok (.error .inval, s)
          else if type ≠ 0 then settypeLink resident s arg d parent
          else settypeUnlink s arg d parent

end

inductive DirectoryAction where
  | initdirblock | splitentry | setname | mergeentry | shiftentry | setinodenum | settype
  | unknown
deriving DecidableEq

/-- `serv_fsupdate_directory`. -/
def servFsupdateDirectory (resident : Blk → Bool) (copyin : Option (Nat → BitVec 8))
    (s : Store Blk) (action : DirectoryAction) (arg : DirectoryArg) : Except Stop Answer :=
  match translateAddress resident arg.dirent with
  | none => .ok (.error .inval, s)
  | some r => do
    if !(← isValidDirent s r) then return (.error .inval, s)
    match action with
    | .initdirblock => return initdirblock s r.blk r.off
    | .splitentry => return splitentry s r.blk r.off arg.param2
    | .setname => setname resident s arg copyin
    | .mergeentry => mergeentry s r.blk r.off arg.param2
    -- not supported
    | .shiftentry => .error .assert
    | .setinodenum => setinodenum resident s arg
    | .settype => settype resident s arg
    | .unknown => return (.ok 0, s)

end Cffs
end Exokernel
