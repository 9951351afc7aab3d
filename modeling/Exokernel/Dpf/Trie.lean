import Exokernel.Dpf.Atom

/-!
# The trie — `dpf.c` and `pid.c`

`dpf_insert` gives a filter an id, coalesces its atoms and merges them into the trie;
`dpf_delete` takes out what no other filter shares. `dpf_active` remembers for each id
the last atom of its filter.

**An id is spent even when the insertion fails.** `dpf_insert` takes the id first and
gives it back only when the new filter turns out to equal one that is there.
-/
set_option autoImplicit false

namespace Exokernel.Dpf

/-! ## 1. Merging -/

/-- `isequal`: structural equality (1), the same load with another constant (-1), or
    neither (0). -/
def isequal (ir1 ir2 : Ir) : Int :=
  if ir1.op ≠ ir2.op then 0
  else
    match ir1.op with
    | .eq =>
      if ir1.offset ≠ ir2.offset || ir1.mask ≠ ir2.mask then 0
      else if ir1.val = ir2.val then 1 else -1
    | .shift =>
      if ir1.shift = ir2.shift && ir1.offset = ir2.offset && ir1.mask = ir2.mask then 1 else 0
    | _ => 0

/-- The loop of `swizzle`: a string of atoms below `a`, returning the last one. -/
def swizzleBelow (a : Ptr) (alignment : BitVec 32) : List Ir → TrieM Ptr
  | [] => pure a
  | ir :: irs => do
    let n ← mkatom (some a) 0 ir
    listInsertHead a n
    let al := if ir.op = .shift then dpfComputeAlignment ir alignment else alignment.setWidth 8
    modAtom n fun x => { x with ir := { x.ir with
      align := if ir.op = .shift then al else x.ir.align
      alignment := al } }
    swizzleBelow n (al.setWidth 32) irs

/-- `swizzle`: the first and the last atom of a new string, whose last atom gets the
    pid. -/
def swizzle (irs : List Ir) (pid : BitVec 8) (alignment : BitVec 32) : TrieM (Option (Ptr × Ptr)) :=
  match irs with
  | [] => pure none
  | ir :: irs => do
    let n ← mkatom none 0 ir
    let al := if ir.op = .shift then dpfComputeAlignment ir alignment else alignment.setWidth 8
    modAtom n fun x => { x with ir := { x.ir with
      align := if ir.op = .shift then al else x.ir.align
      alignment := al } }
    let last ← swizzleBelow n (al.setWidth 32) irs
    modAtom last ({ · with pid })
    pure (some (n, last))

/-- The loop of `insert_or`: the first sibling that compares fewer bits, and the one
    before it. -/
def findShorter (nbits : BitVec 8) : Nat → Option Ptr → Option Ptr → TrieM (Option Ptr × Option Ptr)
  | 0, _, _ => trap .loop
  | _ + 1, succ, none => pure (succ, none)
  | fuel + 1, succ, some a => do
    let x ← load a
    if x.ir.nbits < nbits then pure (succ, some a)
    else findShorter nbits fuel (some a) x.next

/-- `insert_or`. -/
def insertOr (a new : Ptr) : TrieM Unit := do
  let parent := (← load a).parent
  modAtom new ({ · with parent })
  let nbits := (← load new).ir.nbits
  match ← findShorter nbits (← size) none (some a) with
  | (succ, some a) => do
    listInsertBefore a new
    if succ.isNone then
      dpfCompileAtom a
      dpfCompileAtom (← deref (← load a).parent)
  | (succ, none) => do
    let succ ← deref succ
    listInsertAfter succ new
    dpfCompileAtom succ

/-- The walk down the or's of `merge`: the result of `isequal` and the atom it is for. -/
def findOr (ir : Ir) : Nat → Option Ptr → TrieM (Option (Ptr × Int))
  | 0, _ => trap .loop
  | _ + 1, none => pure none
  | fuel + 1, some a => do
    let x ← load a
    let res := isequal x.ir ir
    if res ≠ 0 then pure (some (a, res)) else findOr ir fuel x.next

/-- The loop of `merge` and what follows it. `succ` is the atom above `a`. The result
    is the filter's last atom and whether it fell on top of another filter. -/
def mergeLoop (pid : BitVec 8) : List Ir → Option Ptr → Ptr → BitVec 32 → TrieM (Ptr × Bool)
  | [], none, succ, _ => pure (succ, true)
  | [], some _, succ, _ => do
    -- a short filter: the trie goes on below it
    if (← load succ).pid ≠ 0 then pure (succ, true)
    else
      modAtom succ ({ · with pid })
      pure (succ, false)
  | ir :: irs, none, succ, alignment => do
    -- a long filter: it goes on below the trie
    match ← swizzle (ir :: irs) pid alignment with
    | none => trap .null
    | some (first, last) =>
      listInsertHead succ first
      modAtom first ({ · with parent := some succ })
      pure (last, false)
  | ir :: irs, some firstOr, _, alignment => do
    match ← findOr ir (← size) (some firstOr) with
    | none =>
      match ← swizzle (ir :: irs) pid alignment with
      | none => trap .null
      | some (first, last) =>
        insertOr firstOr first
        pure (last, false)
    | some (a, res) => do
      let x ← load a
      let alignment := if x.ir.op = .shift then x.ir.alignment.setWidth 32 else alignment
      if res = 1 && x.ht.isNone then mergeLoop pid irs x.kids a alignment
      else do
        let a ← if x.ht.isNone then htNewht a else pure a
        match (← load a).ht with
        | none => trap .null
        | some ht =>
          match (← htLookup ht ir.val).1 with
          | some hte => mergeLoop pid irs (← load hte).kids hte alignment
          | none => do
            let hte ← htInsert a ht 0 ir
            match ← swizzle irs pid alignment with
            | some (first, last) =>
              modAtom first ({ · with parent := some hte })
              listInsertHead hte first
              pure (last, false)
            | none =>
              modAtom hte ({ · with pid })
              pure (hte, false)

/-- Count one filter more, or one less, in the hash table of the atom above. -/
def Ht.count (ht : Ht) (isLast : Bool) (d : BitVec 8) : Ht :=
  if isLast then { ht with term := ht.term + d } else { ht with nterm := ht.nterm + d }

/-- `if (p && (ht = p->ht)) ...` of the two loops that walk up a filter. -/
def countIn (p : Option Ptr) (isLast : Bool) (d : BitVec 8) : TrieM Unit :=
  match p with
  | none => pure ()
  | some p => modAtom p fun x => { x with ht := x.ht.map (·.count isLast d) }

/-- The loop of `dpf_merge` that counts the filter in all its atoms. -/
def retain (last : Ptr) : Nat → Option Ptr → TrieM Unit
  | 0, _ => trap .loop
  | _ + 1, none => pure ()
  | fuel + 1, some a => do
    modAtom a fun x => { x with refcnt := x.refcnt + 1 }
    countIn (← load a).parent (a = last) 1
    let x ← load a
    match x.ht with
    | none => pure ()
    | some ht =>
      demandSum x ht
      if htRegenp ht then dpfCompileAtom a
    retain last fuel x.parent

/-- `dpf_base`, the address of `dpf_fake_head`. -/
def dpfBase : Ptr := 0

/-- The loop of `instantiate_filter`. -/
def instantiateUp : Nat → Option Ptr → TrieM Unit
  | 0, _ => trap .loop
  | _ + 1, none => trap .null
  | fuel + 1, some a =>
    if a = dpfBase then pure ()
    else do
      let x ← load a
      if x.refcnt = 1 then
        dpfCompileAtom a
        instantiateUp fuel x.parent
      else if x.pid ≠ 0 then dpfCompileAtom a
      else instantiateUp fuel x.parent

/-- `dpf_merge`, with `merge` at its head. -/
def dpfMerge (irs : List Ir) (pid : BitVec 8) : TrieM (Ptr × Bool) := do
  let (last, overlap) ← mergeLoop pid irs (← load dpfBase).kids dpfBase msgAlign
  retain last (← size) (some last)
  dpfCompileAtom last
  instantiateUp (← size) (← load last).parent
  pure (last, overlap)

/-! ## 2. Taking a filter out -/

/-- The loop of `dpf_delete` that walks up the filter: the atoms to be freed, the last
    one found first. -/
def release (last : Ptr) : Nat → Ptr → List Ptr → TrieM (List Ptr)
  | 0, _, _ => trap .loop
  | fuel + 1, a, fl =>
    if a = dpfBase then pure fl
    else do
      let x ← load a
      modAtom a ({ · with refcnt := x.refcnt - 1 })
      let p ← deref x.parent
      countIn (some p) (a = last) (-1)
      let x' ← load a
      match x'.ht with
      | none => pure ()
      | some ht => demandSum x' ht
      release last fuel p (if x.refcnt = 1 then a :: fl else fl)

/-- `getlast`. -/
def getlastFrom : Nat → Ptr → TrieM Ptr
  | 0, _ => trap .loop
  | fuel + 1, a => do
    match (← load a).next with
    | none => pure a
    | some b => getlastFrom fuel b

/-- `free` of each atom of a list. -/
def freeAll : List Ptr → TrieM Unit
  | [] => pure ()
  | a :: as => do
    free a
    freeAll as

/-- `orlist_p`, of an atom with parent `p`. -/
def orlistP (p : Atom) : TrieM Bool :=
  match p.kids with
  | none => pure false
  | some first => do pure (← load first).next.isSome

/-- What is done about the uppermost freed atom `f`, whose parent is `p`. -/
def unlink (f p : Ptr) : TrieM Unit := do
  let xf ← load f
  let xp ← load p
  let orlist ← orlistP xp
  listRemove f
  match xp.ht with
  | some ht => do
    htDelete p ht xf.ir.val
    let xp ← load p
    if (xp.ht.map (·.ent)) = some 1 then
      -- one entry is left: it takes the place of the hash table
      let last ← deref xp.kids
      modAtom last ({ · with parent := xp.parent })
      listInsertBefore p last
      listRemove p
      free p
      dpfCompileAtom last
      let up ← deref xp.parent
      if (← load up).kids = some last then dpfCompileAtom up
  | none =>
    if orlist then
      if xp.kids = some f then
        let first ← deref xf.next
        dpfCompileAtom first
        dpfCompileAtom (← deref (← load first).parent)
      else if xf.next.isNone then
        dpfCompileAtom (← getlastFrom (← size) (← deref (← load p).kids))
    else dpfCompileAtom p

/-- The part of `dpf_delete` that works on the trie; `a` is `dpf_active[pid]`. -/
def dpfRemove (a : Ptr) (overlap : Bool) : TrieM Unit := do
  if !overlap then modAtom a ({ · with pid := 0 })
  match ← release a (← size) a [] with
  | [] => pure ()
  | f :: fl => do
    unlink f (← deref (← load f).parent)
    freeAll (f :: fl)

/-! ## 3. Ids — `pid.c` -/

/-- The state of `dpf.c` and `pid.c`. -/
structure TrieState where
  heap : Heap
  active : Nat → Option Ptr
  freePids : List Nat
  highwater : Nat

/-- `dpf_allocpid`. -/
def dpfAllocpid (d : TrieState) : Option Nat × TrieState :=
  match d.freePids with
  | p :: ps => (some p, { d with freePids := ps })
  | [] =>
    if maxfilt ≤ d.highwater then (none, d)
    else (some d.highwater, { d with highwater := d.highwater + 1 })

/-- `dpf_freepid`. -/
def dpfFreepid (d : TrieState) (pid : Nat) : TrieState := { d with freePids := pid :: d.freePids }

/-- What `dpf_init_refs` leaves: an empty trie, and id 0 taken. -/
def TrieState.init : TrieState where
  heap := ⟨fun p => if p = dpfBase then some Atom.zero else none, 1⟩
  active := fun _ => none
  freePids := []
  highwater := 1

/-! ## 4. Insertion and deletion -/

/-- `DPF_TOOMANYFILTERS` and the other results below zero. -/
inductive DpfErr where
  | tooManyFilters | tooManyElems | bogusOp | bogusId | overlap | nilFilter
deriving DecidableEq, Repr

/-- What is left of `dpf_delete` for an id whose filter is active. -/
def dpfDrop (d : TrieState) (pid : Nat) (a : Ptr) (overlap : Bool) : Except Trap TrieState :=
  match dpfRemove a overlap d.heap with
  | .error t => .error t
  | .ok (_, heap) =>
    .ok (dpfFreepid { d with heap, active := Function.update d.active pid none } pid)

/-- `dpf_delete`. -/
def dpfDelete (d : TrieState) (pid : Nat) : Except Trap (Except DpfErr Nat × TrieState) :=
  if maxfilt ≤ pid then .ok (.error .bogusId, d)
  else
    match d.active pid with
    | none => .ok (.error .bogusId, d)
    | some a =>
      match dpfDrop d pid a false with
      | .error t => .error t
      | .ok d => .ok (.ok pid, d)

/-- `dpf_insert`, of a filter that is in the kernel's memory. -/
def dpfInsert (d : TrieState) (irs : List Ir) : Except Trap (Except DpfErr Nat × TrieState) :=
  match dpfAllocpid d with
  | (none, d) => .ok (.error .tooManyFilters, d)
  | (some pid, d) =>
    if maxelem ≤ irs.length then .ok (.error .tooManyElems, d)
    else if irs.isEmpty then .ok (.error .nilFilter, d)
    else if irs.any (fun ir => ir.op = .bogus) then .ok (.error .bogusOp, d)
    else
      match dpfMerge (dpfCoalesce irs) (BitVec.ofNat 8 pid) d.heap with
      | .error t => .error t
      | .ok ((tail, overlap), heap) =>
        let d := { d with heap, active := Function.update d.active pid (some tail) }
        if overlap then
          match dpfDrop d pid tail true with
          | .error t => .error t
          | .ok d => .ok (.error .overlap, d)
        else .ok (.ok pid, d)

end Exokernel.Dpf
