import Exokernel.Lib.Queue
import Exokernel.Kern.Env

/-!
# Proxy xnodes — `kern/pxn.c`

A pxn guards extents of a device. It has an access list for itself and one for its
extents, and an array of block pointers, each empty, an extent, or another pxn. An
extent is *forged* from one that contains it: the source remembers the new extent on
a list (`xtnt_forged_to`), the new extent remembers its source (`xtnt_forged_from`), and
removing an extent removes everything forged from it.

How the heap is embedded:

* a pxn is named by a number that is never used again, so a stale pointer to a freed
  pxn stays recognisable. **Following one has no result** (`none`), and neither has a
  kernel assertion that fails;
* the `xtnt_forged_to` lists are the linked lists of `Lib.Queue`, one head per block
  pointer. `pxn_remove_xtnt` walks such a list while its own recursion unlinks elements
  from it, so the links are kept pointer for pointer;
* what `malloc` returns — nothing, or a block with what was in it before — is an argument;
* recursion that the source does not bound takes a `fuel` argument. Running out of it
  is a call that does not return.
-/
set_option autoImplicit false

namespace Exokernel

open Option

open Queue

/-! ## 1. Data -/

/-- `struct Xn_xtnt` without its links: a range of blocks. -/
structure Xtnt where
  block : BitVec 64
  size : BitVec 64
deriving DecidableEq, Repr

/-- `struct Xn_name`. -/
@[ext] structure XnName where
  dev : BitVec 32
  name : BitVec 64
deriving DecidableEq, Repr

/-- `bptr_type`. -/
inductive BptrType where
  | empty | xtnt | pxn
deriving DecidableEq, Repr

/-- `struct Xn_bptr`. Emptying a block pointer leaves the rest of it as it was. -/
structure Bptr where
  type : BptrType
  xtnt : Xtnt
  forgedFrom : Option (Nat × Nat)
  pxn : Nat
deriving DecidableEq, Repr

/-- `struct Pxn`. The lengths of the three lists are `pxn_xtnt_acl_max`,
    `pxn_pxn_acl_max` and `pxn_bptr_sz`. -/
structure Pxn where
  name : XnName
  xtntAcl : List AclEntry
  pxnAcl : List AclEntry
  bptrs : List Bptr
  refcnt : Int
  frozen : Bool

/-- The pxns in memory, the cache that finds them by name (newest first), and the
    `struct Xn_xtnt_ref` records with their links. `overrun` is set when a pxn was
    written past the block it was allocated in. -/
structure PxnState where
  pxns : Nat → Option Pxn
  cache : List Nat
  nextPxn : Nat
  xrs : Nat → Nat × Nat
  nextXr : Nat
  links : Links (Nat × Nat) Nat
  overrun : Bool

/-- `MAX_DISKS`. -/
def maxDisks : Nat := 8

/-- `is_pxn_disk_dev`. -/
def isPxnDiskDev (n : XnName) : Bool := decide (n.dev.toNat < maxDisks)

namespace PxnState

/-- Rewrite a pxn that is in memory. -/
def modPxn (s : PxnState) (p : Nat) (f : Pxn → Pxn) : PxnState :=
  { s with pxns := Function.update s.pxns p ((s.pxns p).map f) }

/-- Rewrite one block pointer. -/
def modBptr (s : PxnState) (p i : Nat) (f : Bptr → Bptr) : PxnState :=
  s.modPxn p fun P => { P with bptrs := P.bptrs.modify i f }

/-- `p->pxn_bptrs[i]`. -/
def bptr? (s : PxnState) (p i : Nat) : Option Bptr :=
  (s.pxns p).bind fun P => P.bptrs[i]?

/-! ### Reading back what was written -/

section
variable (s : PxnState) (p i p' i' : Nat) (f : Pxn → Pxn) (g : Bptr → Bptr)

@[simp] theorem modBptr_xrs : (s.modBptr p i g).xrs = s.xrs := rfl
@[simp] theorem modBptr_nextXr : (s.modBptr p i g).nextXr = s.nextXr := rfl
@[simp] theorem modBptr_nextPxn : (s.modBptr p i g).nextPxn = s.nextPxn := rfl

theorem modPxn_pxns : (s.modPxn p f).pxns p' = if p' = p then (s.pxns p).map f else s.pxns p' := by
  by_cases h : p' = p
  · subst h; simp [modPxn]
  · simp [modPxn, h]

theorem modPxn_bptr? (hf : ∀ P, (f P).bptrs = P.bptrs) :
    (s.modPxn p f).bptr? p' i' = s.bptr? p' i' := by
  unfold bptr?
  rw [modPxn_pxns]
  split
  · rename_i h
    subst h
    cases s.pxns p' with
    | none => rfl
    | some P => simp [hf]
  · rfl

theorem modBptr_bptr? :
    (s.modBptr p i g).bptr? p' i' =
      if p' = p ∧ i' = i then (s.bptr? p i).map g else s.bptr? p' i' := by
  unfold bptr? modBptr
  rw [modPxn_pxns]
  by_cases hp : p' = p
  · subst hp
    simp only [if_true, true_and]
    cases s.pxns p' with
    | none => simp
    | some P =>
      simp only [map_some, bind_some, List.getElem?_modify]
      by_cases hi : i' = i
      · subst hi; simp
      · simp [hi, Ne.symm hi]
  · simp [hp]

variable {s p p' f}

theorem modPxn_none : (s.modPxn p f).pxns p' = none ↔ s.pxns p' = none := by
  rw [modPxn_pxns]
  split
  · rename_i h; subst h; simp
  · rfl

/-- A pxn that is there was there before, and only `p` was rewritten. -/
theorem modPxn_some {P' : Pxn} (h : (s.modPxn p f).pxns p' = some P') :
    ∃ P, s.pxns p' = some P ∧ P' = if p' = p then f P else P := by
  rw [modPxn_pxns] at h
  split at h
  · rename_i hp
    obtain ⟨P, hP, rfl⟩ := map_eq_some_iff.mp h
    exact ⟨P, hp ▸ hP, by simp [hp]⟩
  · rename_i hp
    exact ⟨P', h, by simp [hp]⟩

end

end PxnState

/-! ## 2. Extents and lookups -/

/-- `xtnt_dominates`, in 64-bit arithmetic. -/
def xtntDominates (x1 x2 : Xtnt) : Bool :=
  decide (x1.block ≤ x2.block) && decide (x2.block < x1.block + x1.size) &&
    decide (x1.block < x2.block + x2.size) &&
    decide (x2.block + x2.size ≤ x1.block + x1.size)

/-- `find_free_bptr`. -/
def findFreeBptr (P : Pxn) : Option Nat :=
  P.bptrs.findIdx? fun b => b.type = .empty

/-- `find_dominating_xtnt`. -/
def findDominatingXtnt (P : Pxn) (x : Xtnt) : Option Nat :=
  P.bptrs.findIdx? fun b => b.type = .xtnt && xtntDominates b.xtnt x

/-- `pxn_has_write_caps`. -/
def pxnHasWriteCaps (_ : Pxn) : Bool := false

/-- `lookup_pxn`. Pxns of one name are on one hash queue, newest first. -/
def lookupPxn (s : PxnState) (n : XnName) : Option Nat :=
  s.cache.find? fun p =>
    match s.pxns p with
    | some P => P.name.dev = n.dev && P.name.name = n.name
    | none => false

variable {e : Env} {n : XnName} {r : Except Errno Unit × PxnState} {s : PxnState} {x : Xtnt}

theorem lookupPxn_some {p : Nat} (h : lookupPxn s n = some p) :
    p ∈ s.cache ∧ ∃ P, s.pxns p = some P ∧ P.name = n := by
  have hmem := List.mem_of_find?_eq_some h
  have hp := List.find?_some h
  cases hP : s.pxns p with
  | none => rw [hP] at hp; exact absurd hp (by simp)
  | some P =>
    rw [hP] at hp
    simp only [Bool.and_eq_true, decide_eq_true_eq] at hp
    obtain ⟨hdev, hname⟩ := hp
    cases hn : P.name
    cases n
    simp only [hn] at hdev hname
    exact ⟨hmem, P, rfl, by rw [hn, hdev, hname]⟩

/-- `is_dev_used`. -/
def isDevUsed (s : PxnState) (dev : BitVec 32) : Bool :=
  s.cache.any fun p =>
    match s.pxns p with
    | some P => P.name.dev = dev
    | none => false

/-- `xtnt_verify_access`. -/
def xtntVerifyAccess (P : Pxn) (c : Cap) (access : BitVec 3) : Except Errno Unit :=
  aclAccess c P.xtntAcl access

/-- `pxn_verify_access`. -/
def pxnVerifyAccess (P : Pxn) (c : Cap) (access : BitVec 3) : Except Errno Unit :=
  aclAccess c P.pxnAcl access

/-- `!xtnt_verify_access (p, c, ACL_W, …)`. -/
def xtntReadOnly (P : Pxn) (c : Cap) : Bool :=
  match xtntVerifyAccess P c aclW with
  | .error _ => true
  | .ok () => false

/-! ## 3. Making pxns -/

/-- An empty block pointer. -/
def Bptr.blank : Bptr := ⟨.empty, ⟨0, 0⟩, none, 0⟩

/-- `pxn_alloc`'s size before it is stored in 16 bits, with the sizes of
    `struct Pxn`, `cap` and `struct Xn_bptr`. -/
def pxnSize (pxnCaps xtntCaps : BitVec 8) (bptrs : BitVec 16) : Nat :=
  52 + (xtntCaps.toNat + pxnCaps.toNat) * 8 + bptrs.toNat * 40

/-- `sz`, the number of bytes that `pxn_alloc` asks `malloc` for. -/
def pxnAllocSz (pxnCaps xtntCaps : BitVec 8) (bptrs : BitVec 16) : BitVec 16 :=
  BitVec.ofNat 16 (pxnSize pxnCaps xtntCaps bptrs)

/-- Whether a name is taken: an exact name on a disk, any name on a pseudo-device. -/
def nameTaken (s : PxnState) (n : XnName) : Bool :=
  if isPxnDiskDev n then (lookupPxn s n).isSome else isDevUsed s n.dev

/-- `pxn_alloc`. `mem` is what `malloc` returned: the access lists are laid over it
    as it is, and `acl_init` clears no more than their first entries. -/
def pxnAlloc (s : PxnState) (pxnCaps xtntCaps : BitVec 8) (bptrs : BitVec 16)
    (cPxn cXtnt : Cap) (n : XnName) (mem : Option (Nat → AclEntry)) :
    Except Errno Unit × PxnState :=
  if nameTaken s n then (.error .exists, s)
  else
    match mem with
    | none => (.error .noMem, s)
    | some junk =>
      let overrun := s.overrun || decide (2 ^ 16 ≤ pxnSize pxnCaps xtntCaps bptrs)
      let xtntAcl := aclInit ((List.range xtntCaps.toNat).map junk) xtntCaps.toNat
      let pxnAcl := aclInit ((List.range pxnCaps.toNat).map fun i => junk (xtntCaps.toNat + i))
        pxnCaps.toNat
      match aclAdd pxnAcl (.ofCap cPxn) with
      | .error r => (.error r, { s with overrun := overrun })
      | .ok pxnAcl =>
        match aclAdd xtntAcl (.ofCap cXtnt) with
        | .error r => (.error r, { s with overrun := overrun })
        | .ok xtntAcl =>
          let P : Pxn :=
            ⟨n, xtntAcl, pxnAcl, List.replicate bptrs.toNat Bptr.blank, 1, false⟩
          (.ok (), { s with
              pxns := Function.update s.pxns s.nextPxn (some P)
              cache := s.nextPxn :: s.cache
              nextPxn := s.nextPxn + 1
              overrun := overrun })

/-- After `acl_init` and `acl_add`, the new capability is entry 0 and the rest is what was
    in memory. -/
theorem aclAdd_aclInit {junk : Nat → AclEntry} {n : Nat} {c : Cap} {acl : List AclEntry}
    (h : aclAdd (aclInit ((List.range n).map junk) n) (.ofCap c) = .ok acl) :
    acl = .ofCap c :: ((List.range n).map junk).tail := by
  cases n with
  | zero => exact absurd h (by simp [aclInit, aclAdd_nil])
  | succ n =>
    rw [List.range_succ_eq_map, List.map_cons, aclInit_cons, aclAdd_cons] at h
    simp only [AclEntry.invalidate_valid, if_true] at h
    rw [List.range_succ_eq_map, List.map_cons, List.tail_cons]
    exact (Except.ok.inj h).symm

/-- What `pxn_alloc` makes: it fails without effect on the pxns, or there is one more. -/
theorem pxnAlloc_cases (s : PxnState) (pc xc : BitVec 8) (bs : BitVec 16) (cp cx : Cap)
    (n : XnName) (mem : Option (Nat → AclEntry)) :
    (∃ e o, pxnAlloc s pc xc bs cp cx n mem = (.error e, { s with overrun := o })) ∨
      ∃ junk o, mem = some junk ∧ nameTaken s n = false ∧
        pxnAlloc s pc xc bs cp cx n mem =
          (.ok (), { s with
              pxns := Function.update s.pxns s.nextPxn (some
                ⟨n, .ofCap cx :: ((List.range xc.toNat).map junk).tail,
                  .ofCap cp :: ((List.range pc.toNat).map fun i => junk (xc.toNat + i)).tail,
                  List.replicate bs.toNat Bptr.blank, 1, false⟩)
              cache := s.nextPxn :: s.cache
              nextPxn := s.nextPxn + 1
              overrun := o }) := by
  unfold pxnAlloc
  split
  · exact .inl ⟨_, s.overrun, rfl⟩
  rename_i htaken
  cases mem with
  | none => exact .inl ⟨_, s.overrun, rfl⟩
  | some junk =>
    dsimp only
    split
    · exact .inl ⟨_, _, rfl⟩
    rename_i pxnAcl hp
    split
    · exact .inl ⟨_, _, rfl⟩
    rename_i xtntAcl hx
    obtain rfl := aclAdd_aclInit hx
    obtain rfl := aclAdd_aclInit hp
    exact .inr ⟨junk, _, rfl, by simpa using htaken, rfl⟩

/-- A block pointer that is there after `pxn_alloc` was there before, or is a blank one. -/
theorem pxnAlloc_bptr {pc xc : BitVec 8} {bs : BitVec 16} {cp cx : Cap}
    {mem : Option (Nat → AclEntry)} {p i : Nat} {b : Bptr}
    (h : (pxnAlloc s pc xc bs cp cx n mem).2.bptr? p i = some b) :
    s.bptr? p i = some b ∨ b.type = .empty := by
  rcases pxnAlloc_cases s pc xc bs cp cx n mem with ⟨e, o, heq⟩ | ⟨junk, o, -, -, heq⟩
  · rw [heq] at h
    exact .inl h
  rw [heq] at h
  by_cases hp : p = s.nextPxn
  · subst hp
    simp only [PxnState.bptr?, Function.update_self, bind_some, List.getElem?_replicate] at h
    split at h
    · rw [← some.inj h]; exact .inr rfl
    · exact absurd h (by simp)
  · exact .inl (by simpa [PxnState.bptr?, hp] using h)

/-- `pxn_add_cap`. -/
def pxnAddCap (s : PxnState) (n : XnName) (cNew cPxn : Cap) (flag : Bool) :
    Except Errno Unit × PxnState :=
  match lookupPxn s n with
  | none => (.error .notFound, s)
  | some p =>
    match s.pxns p with
    | none => (.error .notFound, s)
    | some P =>
      match pxnVerifyAccess P cPxn aclW with
      | .error r => (.error r, s)
      | .ok () =>
        if P.frozen then (.error .xtntRdonly, s)
        else if flag then
          match aclAdd P.pxnAcl (.ofCap cNew) with
          | .error r => (.error r, s)
          | .ok acl => (.ok (), s.modPxn p ({ · with pxnAcl := acl }))
        else
          match aclAdd P.xtntAcl (.ofCap cNew) with
          | .error r => (.error r, s)
          | .ok acl => (.ok (), s.modPxn p ({ · with xtntAcl := acl }))

/-! ## 4. Adding extents and pxns -/

/-- `pxn_kernel_add_xtnt`. -/
def pxnKernelAddXtnt (s : PxnState) (n : XnName) (x : Xtnt) : Except Errno Unit × PxnState :=
  match lookupPxn s n with
  | none => (.error .notFound, s)
  | some p =>
    match s.pxns p with
    | none => (.error .notFound, s)
    | some P =>
      match findFreeBptr P with
      | none => (.error .xtntSize, s)
      | some i =>
        let s := s.modBptr p i ({ · with type := .xtnt, xtnt := x, forgedFrom := none })
        (.ok (), { s with links := s.links.init (p, i) })

/-- `pxn_kernel_add_xtnt` fails without effect, or fills a free block pointer. -/
theorem pxnKernelAddXtnt_cases (s : PxnState) (n : XnName) (x : Xtnt) :
    (pxnKernelAddXtnt s n x).2 = s ∨ ∃ p P i, lookupPxn s n = some p ∧ s.pxns p = some P ∧
      findFreeBptr P = some i ∧ (pxnKernelAddXtnt s n x).2 =
        { s.modBptr p i ({ · with type := .xtnt, xtnt := x, forgedFrom := none }) with
          links := s.links.init (p, i) } := by
  unfold pxnKernelAddXtnt
  split
  · exact .inl rfl
  rename_i p hp
  split
  · exact .inl rfl
  rename_i P hP
  split
  · exact .inl rfl
  rename_i i hi
  exact .inr ⟨p, P, i, hp, hP, hi, rfl⟩

/-- The end of `pxn_add_xtnt`: the checks are done, `x` is contained in block pointer
    `j` of `src`, and block pointer `i` of `dst` is free. -/
def forgeXtnt (s : PxnState) (src j dst i : Nat) (x : Xtnt) (freeze : Bool) : PxnState :=
  let s := s.modBptr dst i ({ · with type := .xtnt, xtnt := x, forgedFrom := some (src, j) })
  let s := { s with links := s.links.init (dst, i) }
  let xr := s.nextXr
  let s := { s with
    xrs := Function.update s.xrs xr (dst, i)
    nextXr := xr + 1
    links := s.links.insertHead (src, j) xr }
  if freeze then s.modPxn dst ({ · with frozen := true }) else s

/-- What `pxn_add_xtnt` leaves behind when there is no memory for the record: the block
    pointer is empty again, with the extent in it. -/
def unforgeXtnt (s : PxnState) (dst i : Nat) (x : Xtnt) : PxnState :=
  let s := s.modBptr dst i ({ · with type := .empty, xtnt := x })
  { s with links := s.links.init (dst, i) }

/-- `pxn_add_xtnt` between pxns that are in memory. `mem` says whether the record for
    the source could be allocated. -/
def pxnAddXtnt (s : PxnState) (src : Option Nat) (dst : Nat) (x : Xtnt)
    (cDstPxn cSrcPxn cSrcXtnt : Cap) (mem : Bool) : Option (Except Errno Unit × PxnState) :=
  (s.pxns dst).bind fun D =>
    match pxnVerifyAccess D cDstPxn aclW with
    | .error r => some (.error r, s)
    | .ok () =>
      if !isPxnDiskDev D.name then
        if src.isSome then none else some (pxnKernelAddXtnt s D.name x)
      else
        src.bind fun src => (s.pxns src).bind fun S =>
          match pxnVerifyAccess S cSrcPxn aclR with
          | .error r => some (.error r, s)
          | .ok () =>
            match findDominatingXtnt S x with
            | none => some (.error .notFound, s)
            | some j =>
              match xtntVerifyAccess S cSrcXtnt aclR with
              | .error r => some (.error r, s)
              | .ok () =>
                let freeze := xtntReadOnly S cSrcXtnt
                if freeze && pxnHasWriteCaps D then some (.error .xtntRdonly, s)
                else
                  match findFreeBptr D with
                  | none => some (.error .xtntSize, s)
                  | some i =>
                    if mem then some (.ok (), forgeXtnt s src j dst i x freeze)
                    else some (.error .noMem, unforgeXtnt s dst i x)

/-- The ways `pxn_add_xtnt` ends: nothing happened, an extent was put into a pseudo-device,
    or one was forged, or nearly so. -/
theorem pxnAddXtnt_cases {src : Option Nat} {dst : Nat}
    {cd cs cx : Cap} {mem : Bool}
    (h : pxnAddXtnt s src dst x cd cs cx mem = some r) :
    r.2 = s ∨
      (∃ D, s.pxns dst = some D ∧ isPxnDiskDev D.name = false ∧
        r.2 = (pxnKernelAddXtnt s D.name x).2) ∨
      ∃ p S D j i, src = some p ∧ s.pxns p = some S ∧ s.pxns dst = some D ∧
        isPxnDiskDev D.name = true ∧ findDominatingXtnt S x = some j ∧
        findFreeBptr D = some i ∧
        (r.2 = forgeXtnt s p j dst i x (xtntReadOnly S cx) ∨ r.2 = unforgeXtnt s dst i x) := by
  unfold pxnAddXtnt at h
  obtain ⟨D, hD, h⟩ := bind_eq_some_iff.mp h
  split at h
  · cases h; exact .inl rfl
  split at h
  · rename_i hdisk
    split at h
    · exact absurd h (by simp)
    · cases h
      exact .inr (.inl ⟨D, hD, by simpa using hdisk, rfl⟩)
  rename_i hdisk
  obtain ⟨p, hp, h⟩ := bind_eq_some_iff.mp h
  obtain ⟨S, hS, h⟩ := bind_eq_some_iff.mp h
  split at h
  · cases h; exact .inl rfl
  split at h
  · cases h; exact .inl rfl
  rename_i j hj
  split at h
  · cases h; exact .inl rfl
  dsimp only at h
  split at h
  · cases h; exact .inl rfl
  split at h
  · cases h; exact .inl rfl
  rename_i i hi
  refine .inr (.inr ⟨p, S, D, j, i, hp, hS, hD, by simpa using hdisk, hj, hi, ?_⟩)
  split at h
  · cases h; exact .inl rfl
  · cases h; exact .inr rfl

/-- `pxn_add_pxn` between pxns that are in memory. -/
def pxnAddPxn (s : PxnState) (dst src : Nat) (cDst cSrc : Cap) :
    Option (Except Errno Unit × PxnState) :=
  (s.pxns src).bind fun S => (s.pxns dst).bind fun D =>
    match pxnVerifyAccess S cSrc aclR with
    | .error r => some (.error r, s)
    | .ok () =>
      match pxnVerifyAccess D cDst aclW with
      | .error r => some (.error r, s)
      | .ok () =>
        match findFreeBptr D with
        | none => some (.error .xtntSize, s)
        | some i =>
          let s := s.modPxn src fun P => { P with refcnt := P.refcnt + 1 }
          some (.ok (), s.modBptr dst i ({ · with type := .pxn, pxn := src }))

/-! ## 5. Removing extents -/

/-- Look for the record of block pointer `i` of `p`, from record `xr` on. -/
def findRef (s : PxnState) (p i : Nat) : Nat → Option Nat → Option (Option Nat)
  | _, none => some none
  | 0, some _ => none
  | fuel + 1, some xr =>
    if s.xrs xr = (p, i) then some (some xr) else findRef s p i fuel (s.links.next xr)

/-- Remove the record of block pointer `i` of `p` from the extent it was forged from. -/
def unlinkFromParent (fuel : Nat) (s : PxnState) (p i : Nat) : Option PxnState :=
  (s.bptr? p i).bind fun b =>
    match b.forgedFrom with
    | none => some s
    | some (q, j) =>
      (s.pxns q).bind fun _ =>
        (findRef s p i fuel (s.links.first (q, j))).bind fun found =>
          match found with
          | none => some s
          | some xr => some { s with links := s.links.remove xr }

/-- The loop over `xtnt_forged_to` from record `xr` on: `remove` is the recursive call.
    The successor is read after the call, from a record that may be unlinked by then. -/
def forgedToLoop (remove : PxnState → Nat → Xtnt → Option PxnState) :
    Nat → PxnState → Option Nat → Option PxnState
  | _, s, none => some s
  | 0, _, some _ => none
  | fuel + 1, s, some xr =>
    (s.bptr? (s.xrs xr).1 (s.xrs xr).2).bind fun b =>
      (remove s (s.xrs xr).1 b.xtnt).bind fun s =>
        forgedToLoop remove fuel s (s.links.next xr)

/-- The loop over the block pointers of `p` from `i` on, `left` of them. -/
def removeLoop (remove : PxnState → Nat → Xtnt → Option PxnState) (fuel : Nat) (p : Nat)
    (x : Xtnt) : Nat → Nat → PxnState → Option PxnState
  | 0, _, s => some s
  | left + 1, i, s =>
    (s.bptr? p i).bind fun b =>
      if b.type = .xtnt && xtntDominates x b.xtnt then
        (forgedToLoop remove fuel s (s.links.first (p, i))).bind fun s =>
          (unlinkFromParent fuel s p i).bind fun s =>
            removeLoop remove fuel p x left (i + 1) (s.modBptr p i ({ · with type := .empty }))
      else removeLoop remove fuel p x left (i + 1) s

/-- `pxn_remove_xtnt`. -/
def pxnRemoveXtnt : Nat → PxnState → Nat → Xtnt → Option PxnState
  | 0, _, _, _ => none
  | fuel + 1, s, p, x =>
    (s.pxns p).bind fun P => removeLoop (pxnRemoveXtnt fuel) fuel p x P.bptrs.length 0 s

/-- The loop of `pxn_dealloc` over the block pointers of `p`. -/
def deallocLoop (dealloc : PxnState → Nat → Option PxnState) (fuel : Nat) (p : Nat) :
    Nat → Nat → PxnState → Option PxnState
  | 0, _, s => some s
  | left + 1, i, s =>
    (s.bptr? p i).bind fun b =>
      match b.type with
      | .empty => deallocLoop dealloc fuel p left (i + 1) s
      | .xtnt => (pxnRemoveXtnt fuel s p b.xtnt).bind (deallocLoop dealloc fuel p left (i + 1))
      | .pxn => (dealloc s b.pxn).bind (deallocLoop dealloc fuel p left (i + 1))

/-- `forget_pxn` and `free`. -/
def freePxn (s : PxnState) (p : Nat) : PxnState :=
  { s with pxns := Function.update s.pxns p none, cache := s.cache.erase p }

/-- `pxn_dealloc`. -/
def pxnDealloc : Nat → PxnState → Nat → Option PxnState
  | 0, _, _ => none
  | fuel + 1, s, p =>
    (s.pxns p).bind fun P =>
      let s := s.modPxn p ({ · with refcnt := P.refcnt - 1 })
      if P.refcnt - 1 ≠ 0 then some s
      else
        (deallocLoop (pxnDealloc fuel) fuel p P.bptrs.length 0 s).bind fun s =>
          some (freePxn s p)

/-! ## 6. Using a pxn -/

/-- The loop over the sub-pxns in `pxn_authorizes_xtnt`. -/
def authorizesSub (authorizes : Nat → Option (Except Errno Unit)) :
    List Bptr → Option (Except Errno Unit)
  | [] => some (.error .notFound)
  | b :: bs =>
    if b.type ≠ .pxn then authorizesSub authorizes bs
    else
      (authorizes b.pxn).bind fun r =>
        match r with
        | .ok () => some (.ok ())
        | .error e => if e ≠ .notFound then some (.error e) else authorizesSub authorizes bs

/-- `pxn_authorizes_xtnt`. The first extent that contains `x` decides. -/
def pxnAuthorizesXtnt : Nat → PxnState → Nat → Cap → Xtnt → BitVec 3 →
    Option (Except Errno Unit)
  | 0, _, _, _, _, _ => none
  | fuel + 1, s, p, c, x, access =>
    (s.pxns p).bind fun P =>
      match P.bptrs.find? fun b => b.type = .xtnt && xtntDominates b.xtnt x with
      | some _ => some (xtntVerifyAccess P c access)
      | none => authorizesSub (fun q => pxnAuthorizesXtnt fuel s q c x access) P.bptrs

/-! ## 7. System calls -/

/-- `sys_pxn_alloc`, made by `e`. -/
def sysPxnAlloc (s : PxnState) (e : Env) (pxnCaps xtntCaps : BitVec 8) (bptrs : BitVec 16)
    (kPxn kXtnt : BitVec 32) (n : XnName) (mem : Option (Nat → AclEntry)) :
    Except Errno Unit × PxnState :=
  match envGetcap e kPxn with
  | .error r => (.error r, s)
  | .ok cPxn =>
    match envGetcap e kXtnt with
    | .error r => (.error r, s)
    | .ok cXtnt => pxnAlloc s pxnCaps xtntCaps bptrs cPxn.1 cXtnt.1 n mem

/-- `sys_pxn_add_cap`. -/
def sysPxnAddCap (s : PxnState) (e : Env) (n : XnName) (kNew kPxn : BitVec 32) (flag : Bool) :
    Except Errno Unit × PxnState :=
  match envGetcap e kPxn with
  | .error r => (.error r, s)
  | .ok capPxn =>
    match envGetcap e kNew with
    | .error r => (.error r, s)
    | .ok capNew => pxnAddCap s n capNew.1 capPxn.1 flag

/-- `sys_pxn_add_cap` fails without effect, or extends a list of a pxn that is not frozen. -/
theorem sysPxnAddCap_cases (s : PxnState) (e : Env) (n : XnName) (kn kp : BitVec 32)
    (flag : Bool) :
    (sysPxnAddCap s e n kn kp flag).2 = s ∨ ∃ p P g, s.pxns p = some P ∧ P.frozen = false ∧
      (sysPxnAddCap s e n kn kp flag).2 = s.modPxn p g ∧
      ∀ Q : Pxn, (g Q).name = Q.name ∧ (g Q).bptrs = Q.bptrs := by
  unfold sysPxnAddCap
  split
  · exact .inl rfl
  split
  · exact .inl rfl
  unfold pxnAddCap
  split
  · exact .inl rfl
  rename_i p _
  split
  · exact .inl rfl
  rename_i P hP
  split
  · exact .inl rfl
  split
  · exact .inl rfl
  rename_i hfr
  have hfr : P.frozen = false := by simpa using hfr
  split
  · split
    · exact .inl rfl
    · exact .inr ⟨p, P, _, hP, hfr, rfl, fun _ => ⟨rfl, rfl⟩⟩
  split
  · exact .inl rfl
  · exact .inr ⟨p, P, _, hP, hfr, rfl, fun _ => ⟨rfl, rfl⟩⟩

/-- `sys_pxn_add_xtnt`. A null `src_xn` is for pseudo-devices only. -/
def sysPxnAddXtnt (s : PxnState) (e : Env) (srcXn : Option XnName) (dstXn : XnName) (x : Xtnt)
    (kDstPxn kSrcPxn kSrcXtnt : BitVec 32) (mem : Bool) :
    Option (Except Errno Unit × PxnState) :=
  match srcXn with
  | none =>
    if isPxnDiskDev dstXn then some (.error .notFound, s)
    else
      match lookupPxn s dstXn with
      | none => some (.error .notFound, s)
      | some dst =>
        match envGetcap e kDstPxn with
        | .error r => some (.error r, s)
        -- the two source capabilities stay uninitialised, and unread
        | .ok cDst => pxnAddXtnt s none dst x cDst.1 Cap.null Cap.null mem
  | some srcXn =>
    match lookupPxn s srcXn with
    | none => some (.error .notFound, s)
    | some src =>
      match lookupPxn s dstXn with
      | none => some (.error .notFound, s)
      | some dst =>
        match envGetcap e kDstPxn with
        | .error r => some (.error r, s)
        | .ok cDst =>
          match envGetcap e kSrcPxn with
          | .error r => some (.error r, s)
          | .ok cSrcPxn =>
            match envGetcap e kSrcXtnt with
            | .error r => some (.error r, s)
            | .ok cSrcXtnt => pxnAddXtnt s (some src) dst x cDst.1 cSrcPxn.1 cSrcXtnt.1 mem

/-- `sys_pxn_add_xtnt` fails without effect, or comes down to `pxn_add_xtnt` on the pxns
    that the names lead to, with capabilities that the caller holds. -/
theorem sysPxnAddXtnt_cases {srcXn : Option XnName} {dstXn : XnName}
    {kd ks kx : BitVec 32} {mem : Bool}
    (h : sysPxnAddXtnt s e srcXn dstXn x kd ks kx mem = some r) :
    r.2 = s ∨ ∃ src dst cd cs cx, lookupPxn s dstXn = some dst ∧
      pxnAddXtnt s src dst x cd cs cx mem = some r ∧
      ∀ p, src = some p → ∃ n c, srcXn = some n ∧ lookupPxn s n = some p ∧
        envGetcap e kx = .ok c ∧ cx = c.1 := by
  unfold sysPxnAddXtnt at h
  split at h
  · split at h
    · cases h; exact .inl rfl
    split at h
    · cases h; exact .inl rfl
    rename_i dst hdst
    split at h
    · cases h; exact .inl rfl
    exact .inr ⟨_, _, _, _, _, hdst, h, by simp⟩
  · rename_i n
    split at h
    · cases h; exact .inl rfl
    rename_i src hsrc
    split at h
    · cases h; exact .inl rfl
    rename_i dst hdst
    split at h
    · cases h; exact .inl rfl
    split at h
    · cases h; exact .inl rfl
    split at h
    · cases h; exact .inl rfl
    rename_i c hc
    refine .inr ⟨_, _, _, _, _, hdst, h, fun p hp => ?_⟩
    cases hp
    exact ⟨n, c, rfl, hsrc, hc, rfl⟩

/-- `sys_pxn_add_pxn`. -/
def sysPxnAddPxn (s : PxnState) (e : Env) (dstXn srcXn : XnName) (kDst kSrc : BitVec 32) :
    Option (Except Errno Unit × PxnState) :=
  match lookupPxn s srcXn with
  | none => some (.error .notFound, s)
  | some src =>
    match lookupPxn s dstXn with
    | none => some (.error .notFound, s)
    | some dst =>
      match envGetcap e kDst with
      | .error r => some (.error r, s)
      | .ok cDst =>
        match envGetcap e kSrc with
        | .error r => some (.error r, s)
        | .ok cSrc => pxnAddPxn s dst src cDst.1 cSrc.1

/-- `sys_pxn_add_pxn` fails without effect, or links the pxns that the names lead to. -/
theorem sysPxnAddPxn_cases {dstXn srcXn : XnName} {kd ks : BitVec 32}
    (h : sysPxnAddPxn s e dstXn srcXn kd ks = some r) :
    r.2 = s ∨ ∃ src dst S D i, lookupPxn s srcXn = some src ∧ lookupPxn s dstXn = some dst ∧
      s.pxns src = some S ∧ s.pxns dst = some D ∧ findFreeBptr D = some i ∧
      r.2 = (s.modPxn src fun P => { P with refcnt := P.refcnt + 1 }).modBptr dst i
        ({ · with type := .pxn, pxn := src }) := by
  unfold sysPxnAddPxn at h
  split at h
  · cases h; exact .inl rfl
  rename_i src hsrc
  split at h
  · cases h; exact .inl rfl
  rename_i dst hdst
  split at h
  · cases h; exact .inl rfl
  split at h
  · cases h; exact .inl rfl
  unfold pxnAddPxn at h
  obtain ⟨S, hS, h⟩ := bind_eq_some_iff.mp h
  obtain ⟨D, hD, h⟩ := bind_eq_some_iff.mp h
  split at h
  · cases h; exact .inl rfl
  split at h
  · cases h; exact .inl rfl
  split at h
  · cases h; exact .inl rfl
  rename_i i hi
  cases h
  exact .inr ⟨src, dst, S, D, i, hsrc, hdst, hS, hD, hi, rfl⟩

/-- `sys_pxn_remove_xtnt`. -/
def sysPxnRemoveXtnt (fuel : Nat) (s : PxnState) (e : Env) (n : XnName) (x : Xtnt)
    (k : BitVec 32) : Option (Except Errno Unit × PxnState) :=
  match lookupPxn s n with
  | none => some (.error .notFound, s)
  | some p =>
    match envGetcap e k with
    | .error r => some (.error r, s)
    | .ok c =>
      (s.pxns p).bind fun P =>
        match pxnVerifyAccess P c.1 aclW with
        | .error r => some (.error r, s)
        | .ok () => (pxnRemoveXtnt fuel s p x).map fun s => (.ok (), s)

/-- `sys_pxn_dealloc`. -/
def sysPxnDealloc (fuel : Nat) (s : PxnState) (e : Env) (k : BitVec 32) (n : XnName) :
    Option (Except Errno Unit × PxnState) :=
  match envGetcap e k with
  | .error r => some (.error r, s)
  | .ok c =>
    match lookupPxn s n with
    | none => some (.error .notFound, s)
    | some p =>
      (s.pxns p).bind fun P =>
        match pxnVerifyAccess P c.1 aclW with
        | .error r => some (.error r, s)
        | .ok () => (pxnDealloc fuel s p).map fun s => (.ok (), s)

/-- The removing calls fail without effect or come down to the functions they wrap. -/
theorem sysPxnRemoveXtnt_cases {fuel : Nat}
    {k : BitVec 32}
    (h : sysPxnRemoveXtnt fuel s e n x k = some r) :
    r.2 = s ∨ ∃ p, lookupPxn s n = some p ∧ pxnRemoveXtnt fuel s p x = some r.2 := by
  unfold sysPxnRemoveXtnt at h
  split at h
  · cases h; exact .inl rfl
  rename_i p hp
  split at h
  · cases h; exact .inl rfl
  obtain ⟨P, -, h⟩ := bind_eq_some_iff.mp h
  split at h
  · cases h; exact .inl rfl
  obtain ⟨s₁, hs₁, rfl⟩ := map_eq_some_iff.mp h
  exact .inr ⟨p, hp, hs₁⟩

theorem sysPxnDealloc_cases {fuel : Nat} {k : BitVec 32}
    (h : sysPxnDealloc fuel s e k n = some r) :
    r.2 = s ∨ ∃ p, lookupPxn s n = some p ∧ pxnDealloc fuel s p = some r.2 := by
  unfold sysPxnDealloc at h
  split at h
  · cases h; exact .inl rfl
  split at h
  · cases h; exact .inl rfl
  rename_i p hp
  obtain ⟨P, -, h⟩ := bind_eq_some_iff.mp h
  split at h
  · cases h; exact .inl rfl
  obtain ⟨s₁, hs₁, rfl⟩ := map_eq_some_iff.mp h
  exact .inr ⟨p, hp, hs₁⟩

/-! ## 8. The calls as one type -/

/-- A system call on pxns by environment `e`, or the kernel handing an extent out itself.
    Recursive calls come with the fuel they are given. -/
inductive PxnOp where
  | alloc (e : Env) (pxnCaps xtntCaps : BitVec 8) (bptrs : BitVec 16) (kPxn kXtnt : BitVec 32)
      (n : XnName) (mem : Option (Nat → AclEntry))
  | addCap (e : Env) (n : XnName) (kNew kPxn : BitVec 32) (flag : Bool)
  | addXtnt (e : Env) (src : Option XnName) (dst : XnName) (x : Xtnt)
      (kDstPxn kSrcPxn kSrcXtnt : BitVec 32) (mem : Bool)
  | addPxn (e : Env) (dst src : XnName) (kDst kSrc : BitVec 32)
  | removeXtnt (fuel : Nat) (e : Env) (n : XnName) (x : Xtnt) (k : BitVec 32)
  | dealloc (fuel : Nat) (e : Env) (k : BitVec 32) (n : XnName)
  | kernelAddXtnt (n : XnName) (x : Xtnt)

/-- Make the call. No result: it followed a pointer to a freed pxn, failed an assertion
    or ran out of fuel. -/
def PxnOp.exec (s : PxnState) : PxnOp → Option PxnState
  | .alloc e pc xc bs kp kx n mem => some (sysPxnAlloc s e pc xc bs kp kx n mem).2
  | .addCap e n kn kp flag => some (sysPxnAddCap s e n kn kp flag).2
  | .addXtnt e src dst x kd ks kx mem => (sysPxnAddXtnt s e src dst x kd ks kx mem).map (·.2)
  | .addPxn e dst src kd ks => (sysPxnAddPxn s e dst src kd ks).map (·.2)
  | .removeXtnt fuel e n x k => (sysPxnRemoveXtnt fuel s e n x k).map (·.2)
  | .dealloc fuel e k n => (sysPxnDealloc fuel s e k n).map (·.2)
  | .kernelAddXtnt n x => some (pxnKernelAddXtnt s n x).2

/-- No pxns. -/
def PxnState.empty : PxnState where
  pxns := fun _ => none
  cache := []
  nextPxn := 0
  xrs := fun _ => (0, 0)
  nextXr := 0
  links := ⟨fun _ => none, fun _ => none, fun _ => .inl (0, 0)⟩
  overrun := false

end Exokernel
