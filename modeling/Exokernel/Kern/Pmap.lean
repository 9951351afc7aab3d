import Exokernel.Kern.Kernel

/-!
# Mapping pages — the second half of `kern/pmap.c`

`ppage_insert` and `ppage_remove` map and unmap one page and keep five redundant
records of it: the entry itself, the page's mapping count, its numbers of readers and
writers, its list of `Vpage`s, and the number of entries in the page table. The
system calls walk ranges of addresses and call them.

**Addresses and counts are 32-bit words, as in the source.** The range checks are
one modular expression, made before a loop that visits page after page; the loop
functions below take the words as they are.

User memory is read while a call runs. A list argument is what those reads return,
in order; a read past its end is one that faults, and the call stops there with what
it has done so far. The translation buffer is not modelled.
-/
set_option autoImplicit false

namespace Exokernel

/-! ## 1. One mapping -/

/-- Record mapping `v` of a page, writable or not. -/
def Ppage.addVpage (pp : Ppage) (v : Vpage) (w : Bool) : Ppage :=
  { pp with
    vpl := v :: pp.vpl
    writers := if w then pp.writers + 1 else pp.writers
    readers := pp.readers + 1
    refcnt := pp.refcnt + 1 }

/-- Forget mapping `v` of a page. The first record that matches goes. -/
def Ppage.dropVpage (pp : Ppage) (v : Vpage) (w : Bool) : Ppage :=
  { pp with
    vpl := pp.vpl.erase v
    writers := if w then pp.writers - 1 else pp.writers
    readers := pp.readers - 1
    refcnt := pp.refcnt - 1 }

/-- `pde_check_n_alloc`. It asserts that the directory is in use. -/
def pdeCheckNAlloc (k : Kernel) (d : Fin nenv) (va : BitVec 32) : Except Errno Unit × Kernel :=
  if ((k.pds d).all fun pd => decide (pd.rc.toInt ≤ 0)) then (.error .unspecified, k.halt)
  else
    match k.table d (pdeno va) with
    | some _ => (.ok (), k)
    | none =>
      match ppageAlloc k.mem .kernel false with
      | (.error r, m) => (.error r, k.setMem m)
      | (.ok p, m) => (.ok (), (k.setMem m).setTable d (pdeno va) (some ⟨p, fun _ => 0⟩))

/-- `ppage_remove`. An entry that names no page is left where it is. -/
def ppageRemove (k : Kernel) (d : Fin nenv) (envid va : BitVec 32) : Kernel :=
  match k.pte d va with
  | none => k.halt
  | some pte =>
    if isPresent pte then
      let p := pgno pte
      if k.mem.nppage ≤ p then k
      else
        let k := k.modPage p (·.dropVpage ⟨envid, pgTrunc va⟩ (isWritable pte))
        let k := k.modNptes d (pdeno va) (· - 1)
        let k := if (k.mem.pages p).refcnt = 0 then k.setMem (ppageFree k.mem p) else k
        k.setPte d va 0
    else k.setPte d va 0

/-- `ppage_insert`. -/
def ppageInsert (k : Kernel) (d : Fin nenv) (envid : BitVec 32) (p : Nat) (va perm : BitVec 32) :
    Except Errno Unit × Kernel :=
  let va := pgTrunc va
  match kmalloc k.mem with
  | (false, m) => (.error .noMem, k.setMem m)
  | (true, m) =>
    let v : Vpage := ⟨envid, va⟩
    let k := (k.setMem m).modPage p (·.addVpage v (isWritable perm))
    match pdeCheckNAlloc k d va with
    | (.error r, k) => (.error r, k.modPage p (·.dropVpage v (isWritable perm)))
    | (.ok (), k) =>
      let old := (k.pte d va).getD 0
      let k := if isPresent old then ppageRemove k d envid va else k
      let k := k.setPte d va (pp2pa p ||| perm)
      (.ok (), k.modNptes d (pdeno va) (· + 1))

/-- `ppage_acl_check`. -/
def ppageAclCheck (m : Mem) (p : Nat) (c : Cap) (perm : BitVec 3) : Except Errno Unit :=
  aclAccess c (m.pages p).acl perm

/-- `ppage_setcap`. -/
def ppageSetcap (m : Mem) (p : Nat) (c : Cap) : Mem :=
  m.modPage p ({ · with acl := [.ofCap c, .ofCap Cap.null] })

/-! ## 2. `sys_insert_pte` and `sys_insert_pte_range` -/

/-- `pmap_insert_common`. `none` is a return value of 1: the entry is as it should
    be. Otherwise what is left to do, with the entry's flags put right. -/
def pmapInsertCommon (k : Kernel) (d : Fin nenv) (envid va newPte : BitVec 32) :
    Except Errno (Option (BitVec 32)) × Kernel :=
  match pdeCheckNAlloc k d va with
  | (.error r, k) => (.error r, k)
  | (.ok (), k) =>
    let old := (k.pte d va).getD 0
    if old = newPte then (.ok none, k)
    else
      -- the old mapping goes before any check of the new one
      let k := if isPresent old then (ppageRemove k d envid va).setPte d va 0 else k
      if !isPresent newPte then (.ok none, k.setPte d va newPte)
      else (.ok (some (newPte &&& ~~~pgMbz ||| pgU)), k)

/-- The first half of `pmap_insert_range`'s loop body: find the page that `pte` asks
    for. The flag says that nobody had it before. -/
def pmapFindPage (k : Kernel) (pte : BitVec 32) (userreq : Bool) :
    Except Errno (Nat × Bool) × Kernel :=
  let ppn := pgno pte
  if ppn ≠ 0 then
    if k.mem.nppage ≤ ppn then (.error .inval, k)
    else if (k.mem.pages ppn).buf.isSome then (.error .buffer, k)
    else if (k.mem.pages ppn).status = .free then
      if 0 < (k.mem.pages ppn).pinned then (.error .inval, k)
      else (.ok (ppn, true), k.setMem (ppageReclaimPage k.mem ppn .user))
    else (.ok (ppn, false), k)
  else
    match ppageAlloc k.mem .user userreq with
    | (.error r, m) => (.error r, k.setMem m)
    | (.ok p, m) => (.ok (p, true), k.setMem m)

/-- The check of the second half: guard a new page with `c`, or see whether `c` opens
    the page and the page's limits admit one more mapping. -/
def pmapCheckPage (k : Kernel) (p : Nat) (new : Bool) (c : Cap) (pte : BitVec 32) :
    Except Errno Unit × Kernel :=
  let pp := k.mem.pages p
  if new then
    let acl := aclInit pp.acl pp.acl.length
    match aclAdd acl (.ofCap c) with
    | .error r =>
      let k := k.modPage p ({ · with acl := acl })
      (.error r, k.setMem (ppageFree k.mem p))
    | .ok acl => (.ok (), k.modPage p ({ · with acl := acl }))
  else
    match ppageAclCheck k.mem p c (if isWritable pte then aclW else 0) with
    | .error r => (.error r, k)
    | .ok () =>
      if !ppcompatState (pp.readers.toNat + 1)
          (if isWritable pte then pp.writers.toNat + 1 else pp.writers.toNat) pp.state then
        (.error .share, k)
      else (.ok (), k)

/-- `pmap_insert_range`'s loop body after `pmap_insert_common`. -/
def pmapInsertPage (k : Kernel) (d : Fin nenv) (envid : BitVec 32) (c : Cap)
    (va pte : BitVec 32) (userreq : Bool) : Except Errno Unit × Kernel :=
  match pmapFindPage k pte userreq with
  | (.error r, k) => (.error r, k)
  | (.ok (p, new), k) =>
    match pmapCheckPage k p new c pte with
    | (.error r, k) => (.error r, k)
    | (.ok (), k) =>
      match ppageInsert k d envid p va (pte &&& pgMask) with
      | (.error r, k) => (.error r, if new then k.setMem (ppageFree k.mem p) else k)
      | (.ok (), k) => (.ok (), k)

/-- One round of `pmap_insert_range`'s loop. The flag says whether `*num_completed`
    counts the round. -/
def pmapInsertOne (k : Kernel) (d : Fin nenv) (envid : BitVec 32) (c : Cap)
    (va pte : BitVec 32) (userreq : Bool) : Except Errno Bool × Kernel :=
  match pmapInsertCommon k d envid va pte with
  | (.error r, k) => (.error r, k)
  | (.ok none, k) => (.ok false, k)
  | (.ok (some pte), k) =>
    match pmapInsertPage k d envid c va pte userreq with
    | (.error r, k) => (.error r, k)
    | (.ok (), k) => (.ok true, k)

/-- `pmap_insert_range`'s loop, `left` rounds from `va` on. `completed` is
    `*num_completed`. -/
def pmapInsertLoop (d : Fin nenv) (envid : BitVec 32) (c : Cap) (userreq : Bool) :
    Nat → List (BitVec 32) → BitVec 32 → BitVec 32 → Kernel → Ret × BitVec 32 × Kernel
  | 0, _, _, completed, k => (.ok, completed, k)
  | _ + 1, [], _, completed, k => (.fault, completed, k)
  | left + 1, pte :: ptes, va, completed, k =>
    match pmapInsertOne k d envid c va pte userreq with
    | (.error r, k) => (.err r, completed, k)
    | (.ok counted, k) =>
      pmapInsertLoop d envid c userreq left ptes (va + 4096)
        (if counted then completed + 1 else completed) k

/-- The range check of `pmap_insert_range` and `sys_mod_pte_range`. -/
def rangeRejected (va num : BitVec 32) : Bool := decide (utop ≤ va + (num - 1) * 4096)

/-- `pmap_insert_range`. Rounds already completed are skipped, but `va` and `ptes`
    stay where the caller put them. -/
def pmapInsertRange (k : Kernel) (cur : Fin nenv) (tgt : Option (BitVec 32 × BitVec 32))
    (kcap : BitVec 32) (ptes : List (BitVec 32)) (total va completed : BitVec 32)
    (userreq : Bool) : Ret × BitVec 32 × Kernel :=
  match targetEnv k cur tgt with
  | .error r => (.err r, completed, k)
  | .ok i =>
    if rangeRejected va total then (.err .inval, completed, k)
    else
      match envGetcap (k.envs cur) kcap with
      | .error r => (.err r, completed, k)
      | .ok c =>
        match (k.envs i).pd with
        | none => (.fault, completed, k.halt)
        | some d =>
          pmapInsertLoop d (k.envs i).id c.1 userreq (total.toNat - completed.toNat) ptes va
            completed k

/-- `sys_insert_pte` and `sys_self_insert_pte`. -/
def sysInsertPte (k : Kernel) (cur : Fin nenv) (tgt : Option (BitVec 32 × BitVec 32))
    (kcap pte va : BitVec 32) : Ret × Kernel :=
  let r := pmapInsertRange k cur tgt kcap [pte] 1 va 0 true
  (r.1, r.2.2)

/-- `num_completed`: where it points, and the word there. **Nothing checks the pointer**, and the
    kernel counts through it in ring 0. -/
structure Counter where
  ptr : BitVec 32
  word : BitVec 32

/-- The word is user memory. -/
def Counter.InUser (n : Counter) : Prop := n.ptr.toNat + 4 ≤ utop.toNat

/-- `sys_insert_pte_range` and `sys_self_insert_pte_range`, with `num_completed` in user memory. -/
def sysInsertPteRange (k : Kernel) (cur : Fin nenv) (tgt : Option (BitVec 32 × BitVec 32))
    (kcap : BitVec 32) (ptes : List (BitVec 32)) (num va : BitVec 32) (completed : Counter) :
    Ret × Counter × Kernel :=
  let r := pmapInsertRange k cur tgt kcap ptes num va completed.word true
  (r.1, { completed with word := r.2.1 }, r.2.2)

/-- What is counted is counted in user memory: `num_completed` points there, or no entry that is
    asked for is present. -/
def CountsInUser (ptes : List (BitVec 32)) (num : BitVec 32) (completed : Counter) : Prop :=
  (∀ pte ∈ ptes.take (num.toNat - completed.word.toNat), isPresent pte = false) ∨ completed.InUser

/-! ## 3. `sys_remove_vas` -/

/-- The loop of `sys_remove_vas`. The array is walked from its end, so `vas` lists
    what is read, last element first. -/
def removeVasLoop (d : Fin nenv) (envid : BitVec 32) :
    Nat → List (BitVec 32) → Kernel → Ret × Kernel
  | 0, _, k => (.ok, k)
  | _ + 1, [], k => (.fault, k)
  | num + 1, va :: vas, k =>
    if utop ≤ va then (.err .inval, k)
    else
      match k.pte d va with
      | none => (.err .inval, k)
      | some pte =>
        removeVasLoop d envid num vas (if isPresent pte then ppageRemove k d envid va else k)

/-- `sys_remove_vas` and `sys_self_remove_vas`. -/
def sysRemoveVas (k : Kernel) (cur : Fin nenv) (tgt : Option (BitVec 32 × BitVec 32))
    (vas : List (BitVec 32)) (num : BitVec 32) : Ret × Kernel :=
  match targetEnv k cur tgt with
  | .error r => (.err r, k)
  | .ok i =>
    match (k.envs i).pd with
    | none => (.fault, k.halt)
    | some d => removeVasLoop d (k.envs i).id num.toNat vas k

/-! ## 4. `sys_mod_pte_range` -/

/-- `*ptep &= ~remove; *ptep |= add`. -/
def editPte (pte add remove : BitVec 32) : BitVec 32 := pte &&& ~~~remove ||| add

/-- `adj`, the change in the number of writable mappings. -/
def writersAdj (orig pte : BitVec 32) : BitVec 32 :=
  if isWritable orig && !isWritable pte then -1
  else if !isWritable orig && isWritable pte then 1
  else 0

/-- The checks on a present entry whose hardware flags change. -/
def modPresentPte (k : Kernel) (d : Fin nenv) (c : Cap) (perm : BitVec 3)
    (va pte add remove : BitVec 32) : Except Errno Unit × Kernel :=
  let p := pgno pte
  let pp := k.mem.pages p
  match ppageAclCheck k.mem p c perm with
  | .error r => (.error r, k)
  | .ok () =>
    let new := editPte pte add remove
    let adj := writersAdj pte new
    if !ppcompatState pp.readers.toNat (pp.writers.setWidth 32 + adj).toNat pp.state then
      (.error .share, k)
    else
      (.ok (), (k.setPte d va new).modPage p
          (fun pp => { pp with writers := pp.writers + adj.setWidth 16 }))

/-- One round of `sys_mod_pte_range`. What it returns is `add` for the next round:
    a round that meets an entry that is not present clears `PG_P` for good. -/
def modPteOne (k : Kernel) (d : Fin nenv) (c : Cap) (perm : BitVec 3) (va add remove : BitVec 32) :
    Except Errno (BitVec 32) × Kernel :=
  match pdeCheckNAlloc k d va with
  | (.error r, k) => (.error r, k)
  | (.ok (), k) =>
    let pte := (k.pte d va).getD 0
    if !isPresent pte then
      let add := add &&& ~~~pgP
      (.ok add, k.setPte d va (editPte pte add remove))
    else if !mmuHasHardwareFlags add && !mmuHasHardwareFlags remove then
      (.ok add, k.setPte d va (editPte pte add remove))
    else
      match modPresentPte k d c perm va pte add remove with
      | (.error r, k) => (.error r, k)
      | (.ok (), k) => (.ok add, k)

/-- The loop of `sys_mod_pte_range`. -/
def modPteLoop (d : Fin nenv) (c : Cap) (perm : BitVec 3) (remove : BitVec 32) :
    Nat → BitVec 32 → BitVec 32 → Kernel → Ret × Kernel
  | 0, _, _, k => (.ok, k)
  | num + 1, va, add, k =>
    match modPteOne k d c perm va add remove with
    | (.error r, k) => (.err r, k)
    | (.ok add, k) => modPteLoop d c perm remove num (va + 4096) add k

/-- `sys_mod_pte_range` and `sys_self_mod_pte_range`. -/
def sysModPteRange (k : Kernel) (cur : Fin nenv) (tgt : Option (BitVec 32 × BitVec 32))
    (kcap add remove va num : BitVec 32) : Ret × Kernel :=
  match targetEnv k cur tgt with
  | .error r => (.err r, k)
  | .ok i =>
    if add &&& pgMbz ≠ 0 then (.err .inval, k)
    else if remove &&& pgU ≠ 0 then (.err .inval, k)
    else if rangeRejected va num then (.err .inval, k)
    else
      match envGetcap (k.envs cur) kcap with
      | .error r => (.err r, k)
      | .ok c =>
        match (k.envs i).pd with
        | none => (.fault, k.halt)
        | some d =>
          modPteLoop d c.1 (if isWritable add then aclW else 0) (remove &&& pgMask) num.toNat va
            (add &&& pgMask) k

end Exokernel
