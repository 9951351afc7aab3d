import Exokernel.Kern.Pmap

/-!
# Creating and destroying environments, and passing capabilities — `kern/env.c`,
`kern/capability.c`

`env_alloc` builds an environment in many steps, and each can fail. **The failure
paths are not alike**: most put the environment back on the free list, the first one
(no page for the directory) leaves it on neither list, and the last one goes through
`env_free`.

The user-writable record `Uenv` is shared memory: `storeUenv` is an environment
writing to its own, and a new environment's record is what was in its page before
(`junk`). A user pointer that faults does so before a call has changed anything, and
is left out.
-/
set_option autoImplicit false

namespace Exokernel

/-! ## 1. `env_free` -/

/-- `for (pteno = 0; npte; pteno++)`, from entry `j` of table `i` on, with `npte`
    entries still to find. A loop that leaves the table has no result. -/
def freePtLoop (d : Fin nenv) (envid : BitVec 32) (i : Fin nlpg) :
    Nat → Nat → Nat → Kernel → Option Kernel
  | 0, 0, _, k => some k
  | 0, _ + 1, _, _ => none
  | _ + 1, 0, _, k => some k
  | left + 1, npte + 1, j, k =>
    let va : BitVec 32 := BitVec.ofNat 32 (i.val * 2 ^ 22 + j * 2 ^ 12)
    match k.pte d va with
    | none => none
    | some pte =>
      if isPresent pte then freePtLoop d envid i left npte (j + 1) (ppageRemove k d envid va)
      else freePtLoop d envid i left (npte + 1) (j + 1) k

/-- `npte = envpd_nptes[pdeno]`: a short, read as an unsigned int and capped. -/
def nptesToFree (n : BitVec 16) : Nat :=
  let npte := (n.signExtend 32).toNat
  if nlpg < npte then nlpg else npte

/-- The body of `env_free`'s loop over the directory. -/
def freePt (d : Fin nenv) (envid : BitVec 32) (k : Kernel) (i : Fin nlpg) : Option Kernel :=
  match k.pds d with
  | none => none
  | some pd =>
    match pd.pt i with
    | none => some k
    | some t =>
      (freePtLoop d envid i nlpg (nptesToFree (pd.nptes i)) 0 k).map fun k =>
        k.setMem (ppageFree k.mem t.ppn)

/-- The directory entries `env_free` looks at. -/
def freedPdes : List (Fin nlpg) :=
  (List.finRange nlpg).filter fun i =>
    decide (i < pdeno ulim) && !(decide (pdeno utop ≤ i) && decide (i < pdeno uaddrs))

/-- `env_free`'s loop over the directory. -/
def freePts (d : Fin nenv) (envid : BitVec 32) : List (Fin nlpg) → Kernel → Option Kernel
  | [], k => some k
  | i :: is, k => (freePt d envid k i).bind (freePts d envid is)

/-- The end of `env_free` for the last user of a directory: the table of `UADDR` and
    the directory itself. -/
def freePd (k : Kernel) (d : Fin nenv) : Kernel :=
  match k.pds d with
  | none => k.halt
  | some pd =>
    let m :=
      match pd.pt (pdeno uaddr) with
      | none => k.mem
      | some t => ppageFree k.mem t.ppn
    (k.setMem (ppageFree m pd.pdir)).setPd d none

/-- `UADDRS+envidx(e->env_id)*NBPG`. -/
def uareaVa (envid : BitVec 32) : BitVec 32 :=
  uaddrs + BitVec.ofNat 32 ((envidx envid).val * 4096)

/-- `env_free`. No result: the kernel followed a null pointer, or left a page table. -/
def envFree (k : Kernel) (i : Fin nenv) : Option Kernel :=
  let e := k.envs i
  e.pd.bind fun d =>
    let k := ppageRemove k d e.id (uareaVa e.id)
    let k := k.modPd d fun pd => { pd with rc := pd.rc - 1 }
    (k.pds d).bind fun pd =>
      (if pd.rc = 0 then (freePts d e.id freedPdes k).map (freePd · d) else some k).map fun k =>
        { k.modEnv i ({ · with pd := none, status := .free }) with
          envFreeList := i :: k.envFreeList }

/-- `sys_env_free`. -/
def sysEnvFree (k : Kernel) (cur : Fin nenv) (kcap envid : BitVec 32) : Option (Ret × Kernel) :=
  match envAccess k cur kcap envid aclAll with
  | .error r => some (.err r, k)
  | .ok i =>
    if (k.envs i).id = 0 then some (.err .badEnv, k)
    else (envFree k i).map fun k => (.ok, k)

/-! ## 2. `env_alloc` and `env_clone` -/

/-- A free place for a page directory, as `malloc` would find one. -/
def freePdSlot (k : Kernel) : Option (Fin nenv) :=
  (List.finRange nenv).find? fun d => (k.pds d).isNone

/-- A directory without user mappings. -/
def EnvPd.blank (pdir : Nat) : EnvPd := ⟨0, pdir, 1, fun _ => 0, fun _ => none⟩

/-- The failure paths that undo everything: the directory goes and the environment is
    free again. -/
def undoEnvAlloc (k : Kernel) (i : Fin nenv) (d : Fin nenv) : Kernel :=
  { k.setPd d none with envFreeList := i :: k.envFreeList }

/-- `env_alloc` with `newpt`, from the allocation of the directory on. -/
def envAllocPd (k : Kernel) (i : Fin nenv) (junk : Uenv) : Option (Except Errno (Fin nenv) × Kernel) :=
  match kmalloc k.mem with
  -- a null directory is cleared all the same
  | (false, _) => none
  | (true, m) =>
    (freePdSlot k).bind fun d =>
      let e := k.envs i
      match ppageAlloc m .kernel false with
      | (.error r, m) =>
        some (.error r, ((k.setMem m).setPd d (some { EnvPd.blank 0 with rc := 0 })).modEnv i
            ({ · with pd := some d }))
      | (.ok pdir, m) =>
        let k := (k.setMem m).setPd d (some (EnvPd.blank pdir))
        let k := k.modEnv i ({ · with pd := some d })
        match kmalloc k.mem with
        | (false, m) => some (.error .noMem, undoEnvAlloc (k.setMem (ppageFree m pdir)) i d)
        | (true, m) =>
          match ppageAlloc m .user false with
          | (.error r, m) => some (.error r, undoEnvAlloc (k.setMem (ppageFree m pdir)) i d)
          | (.ok ua, m) =>
            match ppageInsert (k.setMem m) d e.id ua (uareaVa e.id) (pgP ||| pgW ||| pgU) with
            | (.error r, k) =>
              some (.error r, undoEnvAlloc (k.setMem (ppageFree (ppageFree k.mem pdir) ua)) i d)
            | (.ok (), k) =>
              let k := k.modEnv i ({ · with u := some junk })
              match pdeCheckNAlloc k d uaddr with
              | (.error r, k) => (envFree k i).map fun k => (.error r, k)
              | (.ok (), k) =>
                let k := k.setPte d uaddr (pp2pa ua ||| pgP ||| pgW ||| pgU)
                let k := k.modPd d ({ · with id := e.id })
                some (.ok i, k.modEnv i ({ · with status := .ok }))

/-- `env_alloc`. -/
def envAlloc (k : Kernel) (newpt : Bool) (junk : Uenv) :
    Option (Except Errno (Fin nenv) × Kernel) :=
  match k.envFreeList with
  | [] => some (.error .noFreeEnv, k)
  | i :: rest =>
    let id := k.nextEnvId <<< 11 ||| BitVec.ofNat 32 i.val
    let k := { k with envFreeList := rest, nextEnvId := k.nextEnvId + 1 }
    let k := k.modEnv i fun _ => { Env.zero with id := id }
    if newpt then envAllocPd k i junk else some (.ok i, k)

/-- `env_clone`: the new environment shares the caller's directory. -/
def envClone (k : Kernel) (cur : Fin nenv) (junk : Uenv) :
    Option (Except Errno (Fin nenv) × Kernel) :=
  (envAlloc k false junk).bind fun (r, k) =>
    match r with
    | .error r => some (.error r, k)
    | .ok i =>
      (k.envs cur).pd.bind fun d =>
        let k := k.modEnv i ({ · with pd := some d })
        let k := k.modPd d fun pd => { pd with rc := pd.rc + 1 }
        match ppageAlloc k.mem .user false with
        | (.error r, m) => (envFree (k.setMem m) i).map fun k => (.error r, k)
        | (.ok ua, m) =>
          let id := (k.envs i).id
          match ppageInsert (k.setMem m) d id ua (uareaVa id) (pgP ||| pgW ||| pgU) with
          | (.error r, k) => (envFree k i).map fun k => (.error r, k)
          | (.ok (), k) =>
            some (.ok i, k.modEnv i ({ · with u := some junk, status := .ok }))

/-- `e->env_clist[kd] = c`. -/
def Env.setCap (e : Env) (kd : Fin maxCapno) (c : ClistCap) : Env :=
  { e with clist := Function.update e.clist kd c }

/-- `set_cap_uarea`. -/
def setCapUarea (k : Kernel) (i : Fin nenv) (c : Cap) : Kernel :=
  match (k.envs i).pd.bind fun d => k.pte d (uareaVa (k.envs i).id) with
  | none => k.halt
  | some pte => k.setMem (ppageSetcap k.mem (pgno pte) c)

/-- `sys_env_alloc` and, with `clone`, `sys_env_clone`. The result is the new
    environment's id. -/
def sysEnvAlloc (k : Kernel) (cur : Fin nenv) (clone : Bool) (kcap : BitVec 32) (junk : Uenv) :
    Option (Except Errno (BitVec 32) × Kernel) :=
  match envGetcap (k.envs cur) kcap with
  | .error r => some (.error r, k)
  | .ok c =>
    if c.1.perm &&& clAll ≠ clAll then some (.error .capInsuff, k)
    else
      (if clone then envClone k cur junk else envAlloc k true junk).map fun (r, k) =>
        match r with
        | .error r => (.error r, k)
        | .ok i =>
          let k := k.modEnv i (·.setCap 0 c)
          (.ok (k.envs i).id, setCapUarea k i c.1)

/-! ## 3. Forging and passing capabilities -/

/-- `sys_forge` and, without a target, `sys_self_forge`. `new` is the capability the
    user proposes, or none for a null pointer. The result is the slot that was filled,
    or 0 if one was emptied. -/
def sysForge (k : Kernel) (cur : Fin nenv) (tgt : Option (BitVec 32 × BitVec 32))
    (kcap kd : BitVec 32) (new : Option Cap) : Except Errno (BitVec 32) × Kernel :=
  match targetEnv k cur tgt with
  | .error r => (.error r, k)
  | .ok i =>
    if hkd : kd.toNat < maxCapno then
      match envGetcap (k.envs cur) kcap with
      | .error r => (.error r, k)
      | .ok c =>
        if kd = 0 ∧ !(new.any fun n => n.valid && n.perm = aclAll) then (.error .capInsuff, k)
        else
          match new with
          | none => (.ok 0, k.modEnv i (·.setCap ⟨kd.toNat, hkd⟩ ClistCap.null))
          | some n =>
            if !n.valid then (.ok 0, k.modEnv i (·.setCap ⟨kd.toNat, hkd⟩ ClistCap.null))
            else if h : c.1.perm &&& clDup ≠ 0 ∧ capDominates c.1 n = true then
              (.ok kd, k.modEnv i
                  (·.setCap ⟨kd.toNat, hkd⟩ ⟨n, fun _ => not_isptr_of_capDominates h.2⟩))
            else (.error .capInsuff, k)
    else (.error .inval, k)

/-- `sys_self_acquire`. -/
def sysSelfAcquire (k : Kernel) (cur : Fin nenv) (kd genvid : BitVec 32) :
    Except Errno (BitVec 32) × Kernel :=
  if hkd : kd ≠ 0 ∧ kd.toNat < maxCapno then
    match envId2env k genvid with
    | .error r => (.error r, k)
    | .ok i =>
      match (k.envs i).u with
      | none => (.error .badEnv, k)
      | some u =>
        if u.aenvid ≠ (k.envs cur).id then (.error .badEnv, k)
        else
          match envGetcap (k.envs i) u.gkey with
          | .error r => (.error r, k)
          | .ok c =>
            if h : capDominates c.1 u.gcap = true ∧ c.1.perm &&& clDup ≠ 0 then
              let k := k.modEnv i ({ · with u := some { u with aenvid := 0 } })
              (.ok 0, k.modEnv cur
                  (·.setCap ⟨kd.toNat, hkd.2⟩ ⟨u.gcap, fun _ => not_isptr_of_capDominates h.1⟩))
            else (.error .capInsuff, k)
  else (.error .inval, k)

/-- Environment `i` writes its own `Uenv`. -/
def storeUenv (k : Kernel) (i : Fin nenv) (u : Uenv) : Kernel :=
  k.modEnv i fun e => { e with u := e.u.map fun _ => u }

end Exokernel
