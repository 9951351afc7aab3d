import Exokernel.Kern.Pxn

/-!
# The kernel's state

Everything the modelled system calls read or write, and the ways to reach into it:
from an environment id to the environment (`env_id2env`, `env_access`), and from an
address to a page-table entry (`pt_get_ptep`).

**Page tables come in two kinds.** Below `UTOP`, and for the two windows that show the
environments' own records, a table belongs to one page directory. The rest of the
address space is the kernel's: those tables are shared by all directories. A write to
an entry through any directory is then seen through every other one.
-/
set_option autoImplicit false

namespace Exokernel

open Option

/-! ## 1. Addresses and page-table entries — `xok/mmu.h` -/

/-- `UTOP`, the end of the user's part of an address space. -/
def utop : BitVec 32 := 0xcd400000

/-- `UADDR` and `UADDRS`, the windows onto an environment's own record and onto
    everybody's. -/
def uaddr : BitVec 32 := 0xce800000
def uaddrs : BitVec 32 := 0xcec00000

/-- `ULIM`. -/
def ulim : BitVec 32 := 0xcf000000

/-- `PDENO`. -/
def pdeno (va : BitVec 32) : Fin nlpg := ⟨va.toNat / 2 ^ 22, by change _ < 1024; omega⟩

/-- `PTENO`. -/
def pteno (va : BitVec 32) : Fin nlpg := 
  ⟨va.toNat / 2 ^ 12 % 1024, by change _ < 1024; omega⟩

/-- `va & ~PGMASK`. -/
def pgTrunc (va : BitVec 32) : BitVec 32 := va >>> 12 <<< 12

/-- `PG_P`, `PG_W`, `PG_U` and `PG_MBZ`. -/
def pgP : BitVec 32 := 1
def pgW : BitVec 32 := 2
def pgU : BitVec 32 := 4
def pgMbz : BitVec 32 := 0x180

/-- `PGMASK`. -/
def pgMask : BitVec 32 := 0xfff

/-- `pte & PG_P`. -/
def isPresent (pte : BitVec 32) : Bool := pte.getLsbD 0

/-- `pte & PG_W`. -/
def isWritable (pte : BitVec 32) : Bool := pte.getLsbD 1

/-- `pte >> PGSHIFT`. -/
def pgno (pte : BitVec 32) : Nat := (pte >>> 12).toNat

/-- `pp2pa`. -/
def pp2pa (p : Nat) : BitVec 32 := BitVec.ofNat 32 p <<< 12

/-- `mmu_has_hardware_flags`. -/
def mmuHasHardwareFlags (pte : BitVec 32) : Bool := pte &&& 0x1ff ≠ 0

/-! ## 2. Disks and micropartitions -/

/-- A disk as `si_disks` and `si_pxn` describe it. -/
structure Disk where
  bsize : BitVec 32
  size : BitVec 64
  pxn : XnName

/-- `struct FSID`. -/
structure Fsid where
  cap : Cap
  id : BitVec 32

/-- `struct Micropart_header` and the freemap behind it, as they lie in a page. -/
structure MicropartHeader where
  signature : BitVec 64
  numMicroparts : BitVec 32
  micropartSz : BitVec 32
  freemap : Nat → Fsid

/-- `struct Micropart`. The header is named by the page it is in. -/
structure Micropart where
  header : Nat
  loaded : Bool
  bc : Nat

/-! ## 3. The state -/

/-- The kernel. `headers` is what the physical pages hold, read as micropartition
    headers. `halted` is set by a failed assertion outside the memory manager and by
    a null pointer that is followed. -/
structure Kernel where
  mem : Mem
  envs : Fin nenv → Env
  pds : Fin nenv → Option EnvPd
  kernTables : Fin nlpg → Option PageTable
  envFreeList : List (Fin nenv)
  nextEnvId : BitVec 32
  pxn : PxnState
  ndisks : Nat
  ndisks_le : ndisks ≤ maxDisks
  disks : Nat → Disk
  micropart : Nat → Micropart
  headers : Nat → MicropartHeader
  halted : Bool

/-- How a system call returns: 0, an error, or not at all because the user memory it
    was reading is not there. -/
inductive Ret where
  | ok
  | err (e : Errno)
  | fault
deriving DecidableEq

/-- An internal function's result as a system call's. -/
def Ret.ofExcept : Except Errno Unit → Ret
  | .ok () => .ok
  | .error e => .err e

/-- Store an entry of a table. -/
def PageTable.set (t : PageTable) (j : Fin nlpg) (pte : BitVec 32) : PageTable :=
  { t with pte := Function.update t.pte j pte }

namespace Kernel

def halt (k : Kernel) : Kernel := { k with halted := true }

/-- Rewrite one environment. -/
def modEnv (k : Kernel) (i : Fin nenv) (f : Env → Env) : Kernel :=
  { k with envs := Function.update k.envs i (f (k.envs i)) }

/-- Replace the memory manager's state. -/
def setMem (k : Kernel) (m : Mem) : Kernel := { k with mem := m }

/-- Rewrite one page's descriptor. -/
def modPage (k : Kernel) (p : Nat) (f : Ppage → Ppage) : Kernel :=
  { k with mem := k.mem.modPage p f }

/-- Put a page directory at a place, or free the place. -/
def setPd (k : Kernel) (d : Fin nenv) (pd : Option EnvPd) : Kernel :=
  { k with pds := Function.update k.pds d pd }

/-- Rewrite a page directory that exists. -/
def modPd (k : Kernel) (d : Fin nenv) (f : EnvPd → EnvPd) : Kernel :=
  k.setPd d ((k.pds d).map f)

/-! ## 4. Page tables -/

/-- The part of a page directory that points to the kernel's own tables. -/
def kernPde (i : Fin nlpg) : Bool :=
  decide (pdeno utop ≤ i) && decide (i ≠ pdeno uaddr) && decide (i ≠ pdeno uaddrs)

/-- The table behind entry `i` of page directory `d`, if the entry is present. -/
def table (k : Kernel) (d : Fin nenv) (i : Fin nlpg) : Option PageTable :=
  (k.pds d).bind fun pd =>
    match pd.pt i with
    | some t => some t
    | none => if kernPde i then k.kernTables i else none

/-- `*ptep`. -/
def pte (k : Kernel) (d : Fin nenv) (va : BitVec 32) : Option (BitVec 32) :=
  (k.table d (pdeno va)).map fun t => t.pte (pteno va)

/-- `*ptep = pte`. -/
def setPte (k : Kernel) (d : Fin nenv) (va pte : BitVec 32) : Kernel :=
  match k.pds d with
  | none => k
  | some pd =>
    match pd.pt (pdeno va) with
    | some t =>
      k.setPd d
        (some { pd with pt := Function.update pd.pt (pdeno va) (some (t.set (pteno va) pte)) })
    | none =>
      if kernPde (pdeno va) then
        { k with
          kernTables := Function.update k.kernTables (pdeno va)
            ((k.kernTables (pdeno va)).map (·.set (pteno va) pte)) }
      else k

/-- Point a directory entry at a page table, or clear it. -/
def setTable (k : Kernel) (d : Fin nenv) (i : Fin nlpg) (t : Option PageTable) : Kernel :=
  k.modPd d fun pd => { pd with pt := Function.update pd.pt i t }

/-- Adjust `envpd_nptes[i]`. -/
def modNptes (k : Kernel) (d : Fin nenv) (i : Fin nlpg) (f : BitVec 16 → BitVec 16) : Kernel :=
  k.modPd d fun pd => { pd with nptes := Function.update pd.nptes i (f (pd.nptes i)) }

/-! ### What the writers leave alone -/

section
variable (k : Kernel) (d : Fin nenv) (va pte : BitVec 32) (i : Fin nlpg) (p : Nat)

@[simp] theorem halt_envs : k.halt.envs = k.envs := rfl

variable (m : Mem)

@[simp] theorem setMem_envs : (k.setMem m).envs = k.envs := rfl
@[simp] theorem setMem_pds : (k.setMem m).pds = k.pds := rfl
@[simp] theorem setMem_mem : (k.setMem m).mem = m := rfl

variable (f : Ppage → Ppage)

@[simp] theorem modPage_envs : (k.modPage p f).envs = k.envs := rfl
@[simp] theorem modPage_mem : (k.modPage p f).mem = k.mem.modPage p f := rfl

variable (pd : Option EnvPd)

@[simp] theorem setPd_envs : (k.setPd d pd).envs = k.envs := rfl
@[simp] theorem setPd_mem : (k.setPd d pd).mem = k.mem := rfl

variable (g : EnvPd → EnvPd)

@[simp] theorem modPd_envs : (k.modPd d g).envs = k.envs := rfl
@[simp] theorem modPd_mem : (k.modPd d g).mem = k.mem := rfl

variable (t : Option PageTable) (n : BitVec 16 → BitVec 16)

@[simp] theorem setTable_envs : (k.setTable d i t).envs = k.envs := rfl
@[simp] theorem setTable_mem : (k.setTable d i t).mem = k.mem := rfl
@[simp] theorem modNptes_envs : (k.modNptes d i n).envs = k.envs := rfl
@[simp] theorem modNptes_mem : (k.modNptes d i n).mem = k.mem := rfl

@[simp] theorem setPte_envs : (k.setPte d va pte).envs = k.envs := by
  unfold setPte; repeat' split
  all_goals rfl

@[simp] theorem setPte_mem : (k.setPte d va pte).mem = k.mem := by
  unfold setPte; repeat' split
  all_goals rfl

end

/-! ### What is read back -/

section
variable {k : Kernel} {d : Fin nenv} {va : BitVec 32}

theorem setPte_pte_self {old : BitVec 32} (h : k.pte d va = some old) (pte : BitVec 32) :
    (k.setPte d va pte).pte d va = some pte := by
  obtain ⟨t, ht, -⟩ := map_eq_some_iff.mp h
  obtain ⟨pd, hpd, ht⟩ := bind_eq_some_iff.mp ht
  simp only [setPte, hpd]
  cases hown : pd.pt (pdeno va) with
  | some t' => simp [Kernel.pte, table, setPd, PageTable.set]
  | none =>
    simp only [hown] at ht
    split at ht
    · rename_i hk
      simp [Kernel.pte, table, hpd, hown, hk, ht, PageTable.set]
    · cases ht

theorem setPte_setPte (x y : BitVec 32) : (k.setPte d va x).setPte d va y = k.setPte d va y := by
  cases hpd : k.pds d with
  | none => simp [setPte, hpd]
  | some pd =>
    cases hown : pd.pt (pdeno va) with
    | some t => simp [setPte, hpd, hown, setPd, PageTable.set]
    | none =>
      by_cases hk : kernPde (pdeno va) = true
      · simp [setPte, hpd, hown, hk, PageTable.set, Function.comp_def]
      · simp [setPte, hpd, hown, hk]

end

end Kernel

/-! ## 5. Reaching an environment -/

/-- `env_id2env`. -/
def envId2env (k : Kernel) (envid : BitVec 32) : Except Errno (Fin nenv) :=
  let e := k.envs (envidx envid)
  if e.status = .free then .error .badEnv
  else if e.id ≠ envid then .error .badEnv
  else .ok (envidx envid)

/-- `env_access`, called by environment `cur`. The access list is `env_clist[0]`. -/
def envAccess (k : Kernel) (cur : Fin nenv) (ke envid : BitVec 32) (perm : BitVec 3) :
    Except Errno (Fin nenv) :=
  match envGetcap (k.envs cur) ke with
  | .error r => .error r
  | .ok c =>
    match envId2env k envid with
    | .error r => .error r
    | .ok i =>
      match aclAccess c.1 [.ofCap ((k.envs i).clist 0).1] perm with
      | .error r => .error r
      | .ok () => .ok i

/-- The environment a call is about: the caller for a `sys_self_*` call, otherwise
    the one `(ke, envid)` names. -/
def targetEnv (k : Kernel) (cur : Fin nenv) :
    Option (BitVec 32 × BitVec 32) → Except Errno (Fin nenv)
  | none => .ok cur
  | some (ke, envid) => envAccess k cur ke envid aclW

end Exokernel
