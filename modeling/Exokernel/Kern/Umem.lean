import Exokernel.Kern.Kernel

/-!
# Through a user's addresses — `xok/mmu.h`, `xok/env.h`

Several calls are handed pointers that the kernel, a driver or the network will use later. They
check the page-table entries behind the pointers once, when the call is made, and keep the
physical pages. **There are two kinds of check**, `READ_MASK` and `WRITE_MASK`, and two ways to
make it: entry by entry (`va2ptep`), or for a range of addresses (`isreadable_varange`).

The range checks look at the flags of the directory entry as well, the entry checks do not. It
makes a difference in the windows onto kernel data: their tables allow writing, and the directory
does not.
-/
set_option autoImplicit false

namespace Exokernel

/-! ## 1. Entries and pages -/

/-- `env_va2ptep`, and what it points to. -/
def envVa2ptep (k : Kernel) (i : Fin nenv) (va : BitVec 32) : Option (BitVec 32) :=
  (k.envs i).pd.bind fun d => k.pte d va

/-- `env_va2pa`. An address that is not mapped is at 0. -/
def envVa2pa (k : Kernel) (i : Fin nenv) (va : BitVec 32) : BitVec 32 :=
  match envVa2ptep k i va with
  | none => 0
  | some pte => if isPresent pte then pgTrunc pte ||| (va &&& pgMask) else 0

/-- `READ_MASK` and `WRITE_MASK`. -/
def readMask : BitVec 32 := pgP ||| pgU
def writeMask : BitVec 32 := pgP ||| pgU ||| pgW

/-- `(pte & mask) == mask`. -/
def hasMask (mask pte : BitVec 32) : Bool := decide (pte &&& mask = mask)

/-- The entry for an address is there and has the flags: `(*va2ptep (va) & mask) == mask`. -/
def isvaMasked (mask : BitVec 32) (k : Kernel) (i : Fin nenv) (va : BitVec 32) : Bool :=
  (envVa2ptep k i va).any (hasMask mask)

/-- The flags of a directory entry. Tables of the address space's own are entered with all flags.
    Of the kernel's, those below `UADDR` are windows that users may read, the others are not for
    users. -/
def pdeFlags (k : Kernel) (d : Fin nenv) (i : Fin nlpg) : BitVec 32 :=
  if ((k.pds d).bind (·.pt i)).isSome then writeMask
  else if i < pdeno uaddr then readMask
  else pgP ||| pgW

/-- The flags are set in the directory and in the table. -/
def isvaMapped (mask : BitVec 32) (k : Kernel) (i : Fin nenv) (va : BitVec 32) : Bool :=
  (k.envs i).pd.any (fun d => hasMask mask (pdeFlags k d (pdeno va))) && isvaMasked mask k i va

/-- `isvareadable`. -/
def isvareadable : Kernel → Fin nenv → BitVec 32 → Bool := isvaMapped readMask

/-- `isvawriteable`. -/
def isvawriteable : Kernel → Fin nenv → BitVec 32 → Bool := isvaMapped writeMask

/-! ## 2. Ranges -/

/-- `while (sz > NBPG)`: the next `n` pages. -/
def varangeLoop (ok : BitVec 32 → Bool) : Nat → BitVec 32 → Bool
  | 0, _ => true
  | n + 1, va => ok (va + 4096) && varangeLoop ok n (va + 4096)

/-- `isreadable_varange` and `iswriteable_varange`, for either check of an address. -/
def varange (ok : BitVec 32 → Bool) (va sz : BitVec 32) : Bool :=
  ok va && ok (va + sz - 1) && varangeLoop ok ((sz.toNat - 1) / 4096) va

/-- `isreadable_varange`. -/
def isreadableVarange (k : Kernel) (i : Fin nenv) (va sz : BitVec 32) : Bool :=
  varange (isvareadable k i) va sz

/-- `iswriteable_varange`. -/
def iswriteableVarange (k : Kernel) (i : Fin nenv) (va sz : BitVec 32) : Bool :=
  varange (isvawriteable k i) va sz

/-- The loop of `vcheck`. -/
def vcheckLoop (ok : BitVec 32 → Bool) : Nat → BitVec 32 → Bool
  | 0, _ => true
  | npages + 1, va => ok va && vcheckLoop ok npages (va + 4096)

/-- `vcheck`. The page count is taken in 32 bits, without a sign. -/
def vcheck (k : Kernel) (i : Fin nenv) (va len : BitVec 32) (write : Bool) : Bool :=
  let bits := if write then writeMask else readMask
  let npages := if 0 < len.toInt then (len + (va &&& pgMask) + pgMask) >>> 12 else 0
  vcheckLoop (isvaMasked bits k i) npages.toNat (pgTrunc va)

/-- `isvareadable` and `isvawriteable` as the kernel reads them, in directory and table. -/
def vptMasked (mask : BitVec 32) (vpd vpt : BitVec 32 → BitVec 32) (va : BitVec 32) : Bool :=
  hasMask mask (vpd (va >>> 22)) && hasMask mask (vpt (va >>> 12))

/-- The addresses that `data` takes in a loop over `datalen` bytes, page by page:
    `next = (data & ~PGMASK) + NBPG; if (next - data >= datalen) break`. -/
def dataSteps : Nat → BitVec 32 → BitVec 32 → List (BitVec 32)
  | 0, _, _ => []
  | n + 1, data, datalen =>
    if datalen = 0 then []
    else
      let next := pgTrunc data + 4096
      if datalen ≤ next - data then [data] else data :: dataSteps n next (datalen - (next - data))

/-- One address in each page of the `datalen` bytes from `data` on. -/
def dataAddrs (data datalen : BitVec 32) : List (BitVec 32) :=
  dataSteps (datalen.toNat / 4096 + 2) data datalen

/-! ## 3. Bytes -/

/-- Physical memory. -/
abbrev Ram := BitVec 32 → BitVec 8

/-- The byte at a user's address. -/
def ldb (ram : Ram) (k : Kernel) (i : Fin nenv) (va : BitVec 32) : BitVec 8 :=
  ram (envVa2pa k i va)

/-- The word at a user's address, aligned or not. -/
def ldw (ram : Ram) (k : Kernel) (i : Fin nenv) (va : BitVec 32) : BitVec 32 :=
  (ldb ram k i (va + 3) ++ ldb ram k i (va + 2) ++ ldb ram k i (va + 1) ++ ldb ram k i va).cast rfl

/-- Store a byte at a user's address. -/
def stb (ram : Ram) (k : Kernel) (i : Fin nenv) (va : BitVec 32) (x : BitVec 8) : Ram :=
  Function.update ram (envVa2pa k i va) x

/-- Store a word at a user's address. -/
def stw (ram : Ram) (k : Kernel) (i : Fin nenv) (va x : BitVec 32) : Ram :=
  let ram := stb ram k i va (x.extractLsb' 0 8)
  let ram := stb ram k i (va + 1) (x.extractLsb' 8 8)
  let ram := stb ram k i (va + 2) (x.extractLsb' 16 8)
  stb ram k i (va + 3) (x.extractLsb' 24 8)

end Exokernel
