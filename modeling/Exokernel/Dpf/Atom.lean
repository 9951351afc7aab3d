import Mathlib

/-!
# Atoms — `dpf/dpf-internal.h`, `optimize.c` and `hash.h`

A packet filter is a string of atoms: each compares a few bytes of the message with a
constant, or moves the base of the message. The filters of all environments are merged
into one trie, whose nodes are atoms linked by pointers.

**The trie is a heap, not a tree.** An atom is named by its address; its parent, its
first kid, its next sibling and the slot that points at it are addresses too, and the
lists are the doubly linked lists of `queue.h`. What is freed is gone from the heap, and
following a pointer to it, or a null one, is a trap.
-/
set_option autoImplicit false

namespace Exokernel.Dpf

/-! ## 1. Filters -/

/-- `DPF_MAXFILT` and `DPF_MAXELEM`. -/
abbrev maxfilt : Nat := 256
abbrev maxelem : Nat := 256

/-- `DPF_MSG_ALIGN`. -/
def msgAlign : BitVec 32 := 8

/-- `DPF_OP_*`; `bogus` is any other byte. -/
inductive Op where
  | eq | shift | action | stateeq | bogus
deriving DecidableEq, Repr

/-- `struct ir`. The union's members share `op`, `offset`, `nbits` and `mask`; `val` is
    read for comparisons only, `shift` and `align` for shifts only. -/
structure Ir where
  op : Op
  offset : BitVec 16
  nbits : BitVec 8
  mask : BitVec 32
  val : BitVec 32
  shift : BitVec 8
  align : BitVec 8
  alignment : BitVec 8
deriving DecidableEq, Repr

/-- What `dpf_begin` and the constructors of `dpf-ir.c` leave in the other fields. -/
def Ir.zero : Ir := ⟨.bogus, 0, 0, 0, 0, 0, 0, 0⟩

/-- `mkeq`. -/
def mkeq (nbits : BitVec 8) (offset : BitVec 16) (mask val : BitVec 32) : Ir :=
  { Ir.zero with op := .eq, offset, nbits, mask, val }

/-- `mkshift`. -/
def mkshift (nbits : BitVec 8) (offset : BitVec 16) (mask : BitVec 32) (shift : BitVec 8) : Ir :=
  { Ir.zero with op := .shift, offset, nbits, mask, shift }

/-! ## 2. Optimisations — `optimize.c` -/

/-- The body of `dpf_coalesce`'s loop: whether two neighbours abut and fit in a word. -/
def abut (eq1 eq2 : Ir) : Bool :=
  eq1.op = .eq && eq2.op = .eq
    && decide (eq1.nbits.toNat + eq1.offset.toNat * 8 = eq2.offset.toNat * 8)
    && decide (eq1.nbits.toNat + eq2.nbits.toNat ≤ 32)

/-- One atom for two that abut. A shift count is taken modulo 32, as the machine does. -/
def join (eq1 eq2 : Ir) : Ir :=
  { eq1 with
    mask := eq1.mask ||| (eq2.mask <<< (eq1.nbits.toNat % 32))
    val := eq1.val ||| (eq2.val <<< (eq1.nbits.toNat % 32))
    nbits := eq1.nbits + eq2.nbits }

/-- `dpf_coalesce` from the atom `p` on. -/
def coalesceFrom (p : Ir) : List Ir → List Ir
  | [] => [p]
  | ir :: irs => if abut p ir then coalesceFrom (join p ir) irs else p :: coalesceFrom ir irs

/-- `dpf_coalesce`. -/
def dpfCoalesce : List Ir → List Ir
  | [] => []
  | p :: irs => coalesceFrom p irs

/-- `dpf_compute_alignment`, which also records its result in the atom. -/
def dpfComputeAlignment (ir : Ir) (alignment : BitVec 32) : BitVec 8 :=
  let low := ir.mask &&& -ir.mask
  let ca := (if low = 1 then 0 else low) + ir.shift.setWidth 32
  let ca := if ca = 0 then 1 else ca
  (if ca < alignment then ca else alignment).setWidth 8

/-! ## 3. The heap -/

/-- The address of an atom. -/
abbrev Ptr := Nat

/-- How code that works on the trie can fail to return: a null or dead pointer is
    followed, a `demand` does not hold, a loop never ends, or the interpreter's stack
    overflows. Only a literal reading stops at a load that leaves the message. -/
inductive Trap where
  | null | demand | loop | overflow | beyond
deriving DecidableEq, Repr

/-- The labels of `fast_interp` that an atom's code can point to. A comparison's label
    says whether the atom has no sibling and whether it has no pid. -/
inductive Label where
  | eq (nosib nopid : Bool) | eqNoKid
  | deq (nosib nopid : Bool) | deqNoKid
  | seq (nosib nopid : Bool) | seqNoKid
  | shift | action
  | x8 | x16 | x32 | mx8 | mx16 | mx32
deriving DecidableEq, Repr

/-- `struct ht`. -/
structure Ht where
  htsz : BitVec 16
  log2Sz : BitVec 8
  ent : BitVec 32
  coll : Int
  term : BitVec 8
  nterm : BitVec 8
  bucket : Nat → Option Ptr

/-- What `le_prev` points to: an atom's list of kids or an atom's link to its sibling. -/
inductive Slot where
  | kids (p : Ptr)
  | next (p : Ptr)
deriving DecidableEq, Repr

/-- `struct atom`. `next` is the sibling, `chain` the next entry of a hash bucket. -/
structure Atom where
  parent : Option Ptr
  kids : Option Ptr
  next : Option Ptr
  prev : Option Slot
  ht : Option Ht
  chain : Option Ptr
  refcnt : BitVec 8
  pid : BitVec 8
  ir : Ir
  code : Option Label

/-- A zeroed atom, as `calloc` returns it. -/
def Atom.zero : Atom := ⟨none, none, none, none, none, none, 0, 0, Ir.zero, none⟩

/-- The atoms, and an address that has never been used. -/
structure Heap where
  atom : Ptr → Option Atom
  fresh : Ptr

/-- Code that works on the trie. -/
abbrev TrieM := StateT Heap (Except Trap)

/-- `*a`. -/
def load (a : Ptr) : TrieM Atom := fun h =>
  match h.atom a with
  | some x => .ok (x, h)
  | none => .error .null

/-- A store into `*a`. -/
def modAtom (a : Ptr) (f : Atom → Atom) : TrieM Unit := fun h =>
  match h.atom a with
  | some x => .ok ((), { h with atom := Function.update h.atom a (some (f x)) })
  | none => .error .null

/-- `calloc` of an atom. -/
def alloc (x : Atom) : TrieM Ptr := fun h =>
  .ok (h.fresh, ⟨Function.update h.atom h.fresh (some x), h.fresh + 1⟩)

/-- `free`. -/
def free (a : Ptr) : TrieM Unit := fun h =>
  .ok ((), { h with atom := Function.update h.atom a none })

/-- A failed check. -/
def trap {α : Type} (t : Trap) : TrieM α := fun _ => .error t

/-- `demand`. -/
def demand (b : Bool) : TrieM Unit := if b then pure () else trap .demand

/-- A pointer that is followed without a test. -/
def deref (p : Option Ptr) : TrieM Ptr :=
  match p with
  | some a => pure a
  | none => trap .null

/-! ## 4. Lists — `queue.h` -/

/-- `*slot = p`. -/
def storeSlot (slot : Option Slot) (p : Option Ptr) : TrieM Unit :=
  match slot with
  | some (.kids a) => modAtom a ({ · with kids := p })
  | some (.next a) => modAtom a ({ · with next := p })
  | none => trap .null

/-- `p->sibs.le_prev = slot`, if `p` is not null. -/
def setPrev (p : Option Ptr) (slot : Option Slot) : TrieM Unit :=
  match p with
  | some a => modAtom a ({ · with prev := slot })
  | none => pure ()

/-- `LIST_INSERT_HEAD (&p->kids, elm, sibs)`. -/
def listInsertHead (p elm : Ptr) : TrieM Unit := do
  let first := (← load p).kids
  modAtom elm ({ · with next := first })
  setPrev first (some (.next elm))
  modAtom p ({ · with kids := some elm })
  modAtom elm ({ · with prev := some (.kids p) })

/-- `LIST_INSERT_BEFORE`. -/
def listInsertBefore (listelm elm : Ptr) : TrieM Unit := do
  let slot := (← load listelm).prev
  modAtom elm ({ · with prev := slot, next := some listelm })
  storeSlot slot (some elm)
  modAtom listelm ({ · with prev := some (.next elm) })

/-- `LIST_INSERT_AFTER`. -/
def listInsertAfter (listelm elm : Ptr) : TrieM Unit := do
  let rest := (← load listelm).next
  modAtom elm ({ · with next := rest })
  setPrev rest (some (.next elm))
  modAtom listelm ({ · with next := some elm })
  modAtom elm ({ · with prev := some (.next listelm) })

/-- `LIST_REMOVE`. -/
def listRemove (elm : Ptr) : TrieM Unit := do
  let x ← load elm
  setPrev x.next x.prev
  storeSlot x.prev x.next

/-! ## 5. Labels — `dpf_compile_atom` -/

/-- The label for an atom as it is now. -/
def labelOf (a : Atom) : Label :=
  let nosib := a.next.isNone
  let nopid := decide (a.pid = 0)
  match a.ir.op with
  | .shift => .shift
  | .action => .action
  | .stateeq => if a.kids.isNone then .seqNoKid else .seq nosib nopid
  | .eq | .bogus =>
    match a.ht with
    | some ht => if ht.nterm = 0 then .deqNoKid else .deq nosib true
    | none =>
      if a.kids.isNone then .eqNoKid
      else if nopid && nosib then
        let off := a.ir.alignment.toNat + a.ir.offset.toNat
        if a.ir.nbits = 8 then (if a.ir.mask = 0xff then .x8 else .mx8)
        else if a.ir.nbits = 16 && decide (off % 2 = 0) then
          (if a.ir.mask = 0xffff then .x16 else .mx16)
        else if a.ir.nbits = 32 && decide (off % 4 = 0) then
          (if a.ir.mask = 0xffffffff then .x32 else .mx32)
        else .eq nosib nopid
      else .eq nosib nopid

/-- `dpf_compile_atom`. An action loads the message at offset 18, whatever the filter
    said (`coffset`). -/
def dpfCompileAtom (a : Ptr) : TrieM Unit :=
  modAtom a fun x =>
    let x := if x.ir.op = .action then { x with ir := { x.ir with offset := 18 } } else x
    { x with code := some (labelOf x) }

/-! ## 6. Hash tables — `hash.h` and the `ht_*` functions -/

/-- `DPF_INITIAL_HTSZ` and `DPF_HT_USAGE`. -/
def initialHtsz : BitVec 16 := 64
def htUsage : Nat := 50

/-- `hashmult`. -/
def hashmult : BitVec 32 := 1737350767

/-- `hash`. -/
def hash (ht : Ht) (val : BitVec 32) : Nat :=
  (((val * hashmult) >>> (32 - ht.log2Sz.toNat)) &&& (ht.htsz.setWidth 32 - 1)).toNat

/-- `ht_alloc`, for a size that is a power of two. -/
def htAlloc (n : BitVec 16) : Ht :=
  ⟨n, BitVec.ofNat 8 (Nat.log2 n.toNat), 0, 0, 0, 0, fun _ => none⟩

/-- Where a bucket's entry is linked from: the table or another entry. -/
inductive Link where
  | bucket (i : Nat)
  | chain (p : Ptr)
deriving DecidableEq, Repr

/-- The loop of `ht_lookup` from entry `hte`, linked from `last`: the entry, whether
    there was another one before it, and the link to it. -/
def htLookupFrom (val : BitVec 32) : Nat → Option Ptr → Link → Bool →
    TrieM (Option Ptr × Bool × Link)
  | 0, _, _, _ => trap .loop
  | fuel + 1, hte, last, coll =>
    match hte with
    | none => pure (none, coll, last)
    | some p => do
      let x ← load p
      if x.ir.val = val then pure (some p, coll, last)
      else htLookupFrom val fuel x.chain (.chain p) (coll || x.chain.isSome)

/-- A bound on the length of any list in the heap. -/
def size : TrieM Nat := fun h => .ok (h.fresh + 1, h)

/-- `ht_lookup`. -/
def htLookup (ht : Ht) (val : BitVec 32) : TrieM (Option Ptr × Bool × Link) := do
  htLookupFrom val (← size) (ht.bucket (hash ht val)) (.bucket (hash ht val)) false

/-- Put an entry at the head of its bucket. -/
def htPush (ht : Ht) (p : Ptr) : TrieM Ht := do
  let x ← load p
  let i := hash ht x.ir.val
  modAtom p ({ · with chain := ht.bucket i })
  pure { ht with
    coll := if (ht.bucket i).isSome then ht.coll + 1 else ht.coll
    bucket := Function.update ht.bucket i (some p) }

/-- The loop of `ht_expand` over the kids of the node. -/
def htRehash : Nat → Ht → Option Ptr → TrieM Ht
  | 0, _, _ => trap .loop
  | _ + 1, ht, none => pure ht
  | fuel + 1, ht, some p => do
    let ht ← htPush ht p
    htRehash fuel ht (← load p).next

/-- `ht_expand`. -/
def htExpand (a : Ptr) (ht : Ht) : TrieM Unit := do
  let newh := { htAlloc (ht.htsz * 2) with ent := ht.ent, nterm := ht.nterm, term := ht.term }
  let newh ← htRehash (← size) newh (← load a).kids
  modAtom a ({ · with ht := some newh })

/-- `ht_regenp`. The recorded state is `DPF_REGEN` at all times, so this asks whether
    any special case applies. -/
def htRegenp (ht : Ht) : Bool := ht.coll = 0 || ht.nterm = 0 || ht.term = 0

/-- `mkatom`. -/
def mkatom (parent : Option Ptr) (pid : BitVec 8) (ir : Ir) : TrieM Ptr :=
  alloc { Atom.zero with parent, pid, ir }

/-- `ht_insert`, of a value that is not in the table: `merge` looks first. -/
def htInsert (a : Ptr) (ht : Ht) (pid : BitVec 8) (ir : Ir) : TrieM Ptr := do
  let hte ← mkatom (some a) pid ir
  listInsertHead a hte
  let ht ← htPush ht hte
  let ht := { ht with ent := ht.ent + 1 }
  modAtom a ({ · with ht := some ht })
  if ht.coll ≠ 0 && decide (htUsage ≤ (ht.ent.toNat * 100) >>> ht.log2Sz.toNat) then
    htExpand a ht
  pure hte

/-- `ht_newht`: a disjunction takes the place of `a`, which becomes its first entry. -/
def htNewht (a : Ptr) : TrieM Ptr := do
  let x ← load a
  let deq ← mkatom x.parent 0 x.ir
  listInsertBefore a deq
  listRemove a
  let ht := htAlloc initialHtsz
  let ht := { ht with
    bucket := Function.update ht.bucket (hash ht x.ir.val) (some a)
    ent := 1
    nterm := if x.kids.isSome then x.refcnt else 0
    term := if x.kids.isSome then 0 else x.refcnt }
  modAtom deq ({ · with ht := some ht, refcnt := x.refcnt })
  listInsertHead deq a
  modAtom a ({ · with parent := some deq })
  dpfCompileAtom (← deref x.parent)
  dpfCompileAtom a
  pure deq

/-- `demand ((ht->term + ht->nterm) == a->refcnt, ...)`; the sum is an `int`. -/
def demandSum (x : Atom) (ht : Ht) : TrieM Unit :=
  demand (ht.term.toNat + ht.nterm.toNat = x.refcnt.toNat)

/-- `ht_delete`. -/
def htDelete (a : Ptr) (ht : Ht) (val : BitVec 32) : TrieM Unit := do
  let (hte, coll, last) ← htLookup ht val
  let p ← deref hte
  let rest := (← load p).chain
  let ht := { ht with ent := ht.ent - 1 }
  let ht ← match last with
    | .bucket i => pure { ht with bucket := Function.update ht.bucket i rest }
    | .chain q => do
      modAtom q ({ · with chain := rest })
      pure ht
  demandSum (← load a) ht
  let ht := if coll then { ht with coll := ht.coll - 1 } else ht
  demand (0 ≤ ht.coll)
  modAtom a ({ · with ht := some ht })
  if decide (1 < ht.ent) && htRegenp ht then
    dpfCompileAtom a

end Exokernel.Dpf
