import Exokernel.Kern.Kernel

/-!
# Micropartitions — `kern/micropart.c`

A disk is cut into micropartitions of 64 megabytes. The freemap says who owns each: a
capability and the id of a file system. It lies in a page of the buffer cache, block 20 of
the disk, and the owner reaches the blocks through the pxn named by the disk and the file
system's id.

**Ownership is kept twice**, in the freemap and in the pxns' extents, and the calls below
keep the two in step by hand. `micropart[part].mp_header` is a page number here and
`headers` gives what the pages hold; a call that changes the freemap rewrites the page.
Offsets are products of 32-bit words, as in the source.
-/
set_option autoImplicit false

namespace Exokernel

/-- `MICROPART_METADATA_PAGE`. -/
def micropartMetadataPage : BitVec 64 := 20

/-- `MICROPART_SIG`. -/
def micropartSig : BitVec 64 := 0xabcdef0987654321

/-- `MICRO_SZ_BYTES`. -/
def microSzBytes : BitVec 32 := 64 * 1024 * 1024

namespace Kernel

/-- `*micropart[part].mp_header`. -/
def header (k : Kernel) (part : Nat) : MicropartHeader := k.headers (k.micropart part).header

/-- Rewrite `*micropart[part].mp_header`. -/
def modHeader (k : Kernel) (part : Nat) (f : MicropartHeader → MicropartHeader) : Kernel :=
  { k with
    headers := Function.update k.headers (k.micropart part).header (f (k.header part)) }

/-- Rewrite `micropart[part]`. -/
def setMicropart (k : Kernel) (part : Nat) (mp : Micropart) : Kernel :=
  { k with micropart := Function.update k.micropart part mp }

/-- Replace the pxns. -/
def setPxn (k : Kernel) (s : PxnState) : Kernel := { k with pxn := s }

end Kernel

/-- Rewrite one entry of the freemap. -/
def MicropartHeader.setFsid (h : MicropartHeader) (i : Nat) (f : Fsid) : MicropartHeader :=
  { h with freemap := Function.update h.freemap i f }

/-- The extent of micropartition `i`: `micropart_part_off` and `h_micropart_sz`. Its callers
    have checked what `micropart_part_off` asserts. -/
def micropartXtnt (h : MicropartHeader) (i : BitVec 32) : Xtnt :=
  ⟨(h.micropartSz * i).setWidth 64, h.micropartSz.setWidth 64⟩

/-- The name of a file system's pxn. -/
def fsName (part fsid : BitVec 32) : XnName := ⟨part, fsid.setWidth 64⟩

/-- `micropart_freemap_io_pending`. -/
def micropartFreemapIoPending (k : Kernel) (part : BitVec 32) : Bool :=
  match bcLookup64 k.mem part micropartMetadataPage with
  | none => false
  | some b => decide (1 < (k.mem.pages (k.mem.bufs b).ppn).pinned)

/-- The caller may write the pxn of the whole disk. -/
def diskAccess (k : Kernel) (cur : Fin nenv) (part kcap : BitVec 32) : Except Errno Unit :=
  match lookupPxn k.pxn (k.disks part.toNat).pxn with
  | none => .error .notFound
  | some p =>
    match envGetcap (k.envs cur) kcap with
    | .error r => .error r
    | .ok c =>
      match k.pxn.pxns p with
      | none => .error .notFound
      | some P => pxnVerifyAccess P c.1 aclW

/-! ## 1. `sys_micropart_init` -/

/-- The header and its freemap fit in a page. -/
def headerFits (num : BitVec 32) : Bool := decide (24 + 12 * num ≤ (4096 : BitVec 32))

/-- `h_micropart_sz` and `h_num_microparts` for a disk. -/
def microSz (d : Disk) : BitVec 32 := microSzBytes / d.bsize
def numMicro (d : Disk) : BitVec 32 := (d.size / (microSz d).setWidth 64).setWidth 32

/-- The part of `sys_micropart_init` that finds room for the freemap. Division by zero traps
    and a failed assertion stops the kernel: no result. -/
def micropartNewHeader (k : Kernel) (part : BitVec 32) : Option (Except Errno Unit × Kernel) :=
  match ppageGetReclaimableBuffer k.mem part micropartMetadataPage 1 false with
  | (.error r, m) => some (.error r, k.setMem m)
  | (.ok b, m) =>
    let p := (m.bufs b).ppn
    let d := k.disks part.toNat
    if d.bsize = 0 ∨ microSz d = 0 ∨ !headerFits (numMicro d) then none
    else
      let k := (k.setMem (ppagePin m p)).setMicropart part.toNat ⟨p, true, b⟩
      some (.ok (), k.modHeader part.toNat fun h =>
          { h with
            signature := micropartSig
            numMicroparts := numMicro d
            micropartSz := microSz d })

/-- `h_freemap[i].fs_cap.c_valid = 0` for every micropartition. -/
def MicropartHeader.clear (h : MicropartHeader) : MicropartHeader :=
  { h with
    freemap := fun i =>
      if i < h.numMicroparts.toNat then
        { h.freemap i with cap := { (h.freemap i).cap with valid := false } }
      else h.freemap i }

/-- `sys_micropart_init`. -/
def sysMicropartInit (k : Kernel) (cur : Fin nenv) (part kcap : BitVec 32) :
    Option (Ret × Kernel) :=
  if k.ndisks ≤ part.toNat then some (.err .inval, k)
  else
    match diskAccess k cur part kcap with
    | .error r => some (.err r, k)
    | .ok () =>
      if (k.micropart part.toNat).loaded then
        if micropartFreemapIoPending k part then some (.err .inval, k)
        else if !headerFits (k.header part.toNat).numMicroparts then none
        else some (.ok, k.modHeader part.toNat (·.clear))
      else
        (micropartNewHeader k part).map fun (r, k) =>
          match r with
          | .error r => (.err r, k)
          | .ok () => (.ok, k.modHeader part.toNat (·.clear))

/-! ## 2. `sys_micropart_load` and `sys_micropart_free` -/

/-- `sys_micropart_load`. The page stays pinned also when the header turns out bad. -/
def sysMicropartLoad (k : Kernel) (cur : Fin nenv) (part kcap : BitVec 32) :
    Option (Ret × Kernel) :=
  if k.ndisks ≤ part.toNat then some (.err .inval, k)
  else if (k.micropart part.toNat).loaded then some (.err .inval, k)
  else
    match diskAccess k cur part kcap with
    | .error r => some (.err r, k)
    | .ok () =>
      (bcLookup64 k.mem part micropartMetadataPage).bind fun b =>
        let p := (k.mem.bufs b).ppn
        let k := k.setMem (ppagePin k.mem p)
        let k := k.setMicropart part.toNat { k.micropart part.toNat with header := p }
        let h := k.header part.toNat
        if h.signature ≠ micropartSig then some (.err .inval, k)
        else if (k.disks part.toNat).size < (h.numMicroparts * h.micropartSz).setWidth 64 then
          some (.err .inval, k)
        else some (.ok, k.setMicropart part.toNat ⟨p, true, b⟩)

/-- The loop of `sys_micropart_free`. It reads the freemap's first entry in every round
    (`h_freemap->fs_cap`, not `h_freemap[i].fs_cap`). -/
def micropartFreeLoop (fuel : Nat) (part : BitVec 32) (entry : Fsid) :
    Nat → PxnState → Option PxnState
  | 0, s => some s
  | n + 1, s =>
    if entry.cap.valid then
      match lookupPxn s (fsName part entry.id) with
      | some p => (pxnDealloc fuel s p).bind (micropartFreeLoop fuel part entry n)
      | none => micropartFreeLoop fuel part entry n s
    else micropartFreeLoop fuel part entry n s

/-- `sys_micropart_free`. -/
def sysMicropartFree (fuel : Nat) (k : Kernel) (cur : Fin nenv) (part kcap : BitVec 32) :
    Option (Ret × Kernel) :=
  if k.ndisks ≤ part.toNat then some (.err .inval, k)
  else
    match diskAccess k cur part kcap with
    | .error r => some (.err r, k)
    | .ok () =>
      let mp := k.micropart part.toNat
      if !mp.loaded then some (.ok, k)
      else
        let h := k.header part.toNat
        (micropartFreeLoop fuel part (h.freemap 0) h.numMicroparts.toNat k.pxn).map fun s =>
          let k := k.setPxn s
          let k := k.setMem (ppageUnpin k.mem (k.mem.bufs mp.bc).ppn)
          (.ok, k.setMicropart part.toNat { mp with loaded := false })

/-! ## 3. `sys_micropart_bootfs` -/

/-- The loop of `sys_micropart_bootfs` over micropartitions `i, …, i + left - 1`. A pxn that
    is left half filled by an error stays. -/
def bootfsLoop (h : MicropartHeader) (part fsid : BitVec 32) (c : Cap) :
    Nat → Nat → PxnState → Except Errno Unit × PxnState
  | 0, _, s => (.ok (), s)
  | left + 1, i, s =>
    let f := h.freemap i
    if f.cap.valid && f.id = fsid then
      if !capDominates c f.cap then (.error .capInsuff, s)
      else
        match pxnKernelAddXtnt s (fsName part fsid) (micropartXtnt h (BitVec.ofNat 32 i)) with
        | (.error r, s) => (.error r, s)
        | (.ok (), s) => bootfsLoop h part fsid c left (i + 1) s
    else bootfsLoop h part fsid c left (i + 1) s

/-- `sys_micropart_bootfs`. `mem` is the memory the pxn is made in. -/
def sysMicropartBootfs (k : Kernel) (cur : Fin nenv) (part kcap fsid : BitVec 32)
    (mem : Option (Nat → AclEntry)) : Ret × Kernel :=
  if k.ndisks ≤ part.toNat then (.err .inval, k)
  else if !(k.micropart part.toNat).loaded then (.err .inval, k)
  else if micropartFreemapIoPending k part then (.err .inval, k)
  else
    match envGetcap (k.envs cur) kcap with
    | .error r => (.err r, k)
    | .ok c =>
      let h := k.header part.toNat
      match pxnAlloc k.pxn 3 3 (h.numMicroparts.setWidth 16) c.1 c.1 (fsName part fsid) mem with
      | (.error r, s) => (.err r, k.setPxn s)
      | (.ok (), s) =>
        let r := bootfsLoop h part fsid c.1 h.numMicroparts.toNat 0 s
        (.ofExcept r.1, k.setPxn r.2)

/-! ## 4. `sys_micropart_alloc` and `sys_micropart_dealloc` -/

/-- `sys_micropart_alloc`. -/
def sysMicropartAlloc (k : Kernel) (cur : Fin nenv) (part upart kcap fsid : BitVec 32) :
    Ret × Kernel :=
  if k.ndisks ≤ part.toNat then (.err .inval, k)
  else if !(k.micropart part.toNat).loaded then (.err .inval, k)
  else if (k.header part.toNat).numMicroparts ≤ upart then (.err .inval, k)
  else if micropartFreemapIoPending k part then (.err .inval, k)
  else if ((k.header part.toNat).freemap upart.toNat).cap.valid then (.err .exists, k)
  else
    match envGetcap (k.envs cur) kcap with
    | .error r => (.err r, k)
    | .ok c =>
      let k := k.modHeader part.toNat (·.setFsid upart.toNat ⟨c.1, fsid⟩)
      let k := k.setMem (bcSetDirty k.mem (k.micropart part.toNat).bc)
      let x := micropartXtnt (k.header part.toNat) upart
      -- the freemap keeps the entry if the pxn has no room or does not exist
      let r := pxnKernelAddXtnt k.pxn (fsName part fsid) x
      (.ofExcept r.1, k.setPxn r.2)

/-- `sys_micropart_dealloc`. -/
def sysMicropartDealloc (fuel : Nat) (k : Kernel) (cur : Fin nenv)
    (part upart kcap fsid : BitVec 32) : Option (Ret × Kernel) :=
  if k.ndisks ≤ part.toNat then some (.err .inval, k)
  else if !(k.micropart part.toNat).loaded then some (.err .inval, k)
  else if (k.header part.toNat).numMicroparts ≤ upart then some (.err .inval, k)
  else if micropartFreemapIoPending k part then some (.err .inval, k)
  else
    let f := (k.header part.toNat).freemap upart.toNat
    if !f.cap.valid then some (.err .exists, k)
    else
      match envGetcap (k.envs cur) kcap with
      | .error r => some (.err r, k)
      | .ok c =>
        if !capDominates c.1 f.cap then some (.err .capInsuff, k)
        else if f.id ≠ fsid then some (.err .inval, k)
        else
          match lookupPxn k.pxn (fsName part fsid) with
          | none => some (.err .notFound, k)
          | some p =>
            let x := micropartXtnt (k.header part.toNat) upart
            (pxnRemoveXtnt fuel k.pxn p x).map fun s =>
              let k := k.setPxn s
              let k := k.modHeader part.toNat
                (·.setFsid upart.toNat { f with cap := { f.cap with valid := false } })
              (.ok, k.setMem (bcSetDirty k.mem (k.micropart part.toNat).bc))

end Exokernel
