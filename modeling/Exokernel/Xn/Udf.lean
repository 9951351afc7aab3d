import Exokernel.Xn.Dependency
import Exokernel.Xn.Interp

/-!
# Owned sets and updates of metadata — `ubb/udf.c` and `ubb/mv.c`

The set of blocks that an object owns under an index is what `owns` adds when it is run on
the object's bytes. To allocate, free or swap, the user says which bytes to write where;
`meta_transaction` runs `owns` before and after and compares the two sets.

**Which bytes `owns` looks at is asked of `read_f`, and remembered.** `udf_getset` keeps the
answer for the last function and index. An answer that it has computed itself is also what
`udf_extent` points to, so that `owns` can add to it.
-/
set_option autoImplicit false

namespace Exokernel.Xn

/-! ## 1. Types — `ubb/ubb.h` -/

/-- `udf_base_type`. -/
structure BaseType where
  rawWrite : Ext
  owns : UdfFun
  nowns : Word
  readF : UdfFun
deriving DecidableEq, Repr

/-- The class of a type and what its union holds. -/
inductive Body where
  | base (b : BaseType)
  | struct (ty : List Word)
  | union (ty : List Word)
deriving DecidableEq, Repr

/-- `udf_type`, at an address; `named` says that its name ends. -/
structure UdfType where
  addr : Nat
  named : Bool
  nbytes : Word
  getType : UdfFun
  typeAccess : Ext
  body : Body
deriving DecidableEq, Repr

/-- The types that are active, by number. -/
abbrev Types := Word → Option UdfType

/-- `xn_isspecial`: `XN_ROOT_TYPE` and `XN_TYPE_TYPE`. -/
def xnIsspecial (ty : Word) : Bool := ty = 1 || ty = 2

/-! ## 2. Functions are run -/

/-- The static data of `udf_interp` and `udf_getset`: the registers, and the last function
    and index with the set for them. -/
structure Kern where
  regs : Nat → Word
  memo : Option (Nat × Word × Ext)

/-- A read set, and whether it is what `udf_extent` points to. -/
structure Access where
  ext : Ext
  live : Bool
deriving DecidableEq, Repr

/-- Memory that is all zero. -/
def zeroMem : Mem := fun _ _ => 0

/-- The run of `read_f` in `udf_getset`. It may not look at memory. -/
def readSet (regs : Nat → Word) (f : UdfFun) (index : Word) :
    Except Stop (Ext × (Nat → Word)) := do
  let (_, c) ← udfInterp ⟨zeroMem, 0, some []⟩ f [index] ⟨regs, none, some []⟩
  return (c.ext.getD [], c.regs)

/-- The remembered set, if it is the one for this function and index. -/
def Kern.hit (k : Kern) (addr : Nat) (index : Word) : Option Ext :=
  match k.memo with
  | some (a, i, e) => if a = addr ∧ i = index then some e else none
  | none => none

/-- `udf_getset`, for the function `read_f` of the type at `addr`. -/
def udfGetset (k : Kern) (addr : Nat) (f : UdfFun) (index : Word) :
    Except Stop (Access × Kern) :=
  match k.hit addr index with
  | some e => .ok (⟨e, false⟩, k)
  | none => do
    let (e, regs) ← readSet k.regs f index
    return (⟨e, true⟩, ⟨regs, some (addr, index, e)⟩)

/-- `udf_run`. Without a set the result is a null pointer. -/
def udfRun (k : Kern) (mem : Mem) (base : Nat) (f : UdfFun) (index : Word) (r : Access) :
    Except Stop (Option USet × Access × Kern) := do
  let reads := if r.live then none else some r.ext
  let ext := if r.live then some r.ext else none
  let (w, c) ← udfInterp ⟨mem, base, reads⟩ f [index] ⟨k.regs, some [], ext⟩
  return (if w = 0 then none else c.set, ⟨c.ext.getD r.ext, r.live⟩, { k with regs := c.regs })

/-- `udf_get_union_type`. -/
def udfGetUnionType (k : Kern) (mem : Mem) (base : Nat) (t : UdfType) :
    Except Stop (Word × Kern) := do
  let (w, c) ← udfInterp ⟨mem, base, some t.typeAccess⟩ t.getType [] ⟨k.regs, none, none⟩
  return (w, { k with regs := c.regs })

/-- The functions of a type that is no union, if the index is one of its own. For a structure
    the code looks at a union that holds something else. -/
def baseFuns (t : UdfType) (ownId : Word) : Except Stop (Option (Nat × BaseType)) :=
  match t.body with
  | .base b => .ok (if b.nowns ≤ ownId then none else some (t.addr, b))
  | .struct _ | .union _ => .error .confused

/-- `udf_lookup`. -/
def udfLookup (types : Types) (k : Kern) (mem : Mem) (base : Nat) (ty ownId : Word) :
    Except Stop (Option (Nat × BaseType) × Kern) :=
  match types ty with
  | none => .ok (none, k)
  | some t =>
    match t.body with
    | .union _ => do
      let (w, k) ← udfGetUnionType k mem base t
      if w = 0 then return (none, k)
      match types w with
      | none => return (none, k)
      | some t => return (← baseFuns t ownId, k)
    | .base _ | .struct _ => do return (← baseFuns t ownId, k)

/-! ## 3. Updates — `ubb/mv.c` -/

/-- `struct xn_m_vec`, with the bytes at its address. -/
structure MVec where
  offset : Word
  data : List (BitVec 8)
deriving DecidableEq, Repr

/-- An element where the user has it. It is read again each time; the bytes at `held`, its own and
    those of the operation that names it, say where it leads and how long it is. -/
structure Elem where
  look : Mem → MVec
  held : List Nat
  stable : ∀ m m', (∀ x ∈ held, m' () x = m () x) →
    (look m').offset = (look m).offset ∧ (look m').data.length = (look m).data.length

def looks (mv : List Elem) (m : Mem) : List MVec := mv.map (·.look m)

/-- `struct xn_op`, without the capability, which nothing looks at. -/
structure Op where
  u : Upd
  ownId : Word
  mv : List Elem

/-- One element of `mv_write`. -/
def MVec.write (base : Nat) (m : Mem) (v : MVec) : Mem :=
  m.blit () (base + v.offset.toNat) v.data.length fun i => v.data.getD i 0

/-- `mv_write`, of elements in the arena. -/
def mvWrite (m : Mem) (base : Nat) (mv : List MVec) : Mem := mv.foldl (MVec.write base) m

/-- `mv_write` of the user's vector, which may lie among the bytes that are written. -/
def mvWriteUser (m : Mem) (base : Nat) (mv : List Elem) : Mem :=
  mv.foldl (fun m v => MVec.write base m (v.look m)) m

/-- `mv_read`. An element without bytes is a failed `assert`. -/
def mvRead (m : Mem) (base : Nat) : List MVec → Except Stop (List MVec)
  | [] => .ok []
  | v :: mv => do
    if v.data.length = 0 then .error .fatal
    else
      let data := (List.range v.data.length).map fun i => m () (base + v.offset.toNat + i)
      return { v with data } :: (← mvRead m base mv)

/-- `mv_access`; `readable` says what the user may read. -/
def mvAccess (size : Nat) (readable : MVec → Bool) : List MVec → Except Stop Bool
  | [] => .ok true
  | v :: mv =>
    let len := (v.offset.toNat + v.data.length) % 2 ^ 32
    if !readable v || decide (size < len) then .ok false
    else if len < v.offset.toNat ∨ len < v.data.length then .error .fatal
    else mvAccess size readable mv

/-! ## 4. Transactions -/

/-- `add`: the new set is the old one and `u`. -/
def add (u : Upd) : Option USet → Option USet → Except Stop Bool
  | some old, some new => .ok (setEq (setUnion old (setSingle u)) new)
  | _, _ => .error .dangling

/-- `remove`: what is in the old set but not in the new one is `u`. -/
def remove (u : Upd) : Option USet → Option USet → Except Stop Bool
  | some old, some new => .ok (setEq (setDiff old new) (setSingle u))
  | some [], none => .ok false
  | _, none => .error .dangling
  | none, _ => .error .dangling

/-- `move`: `uDel` is taken out of the old set and `uAdd` is put into it. -/
def move (uAdd uDel : Upd) : Option USet → Option USet → Except Stop Bool
  | none, _ => .error .dangling
  | some old, new =>
    if !setIssubset old (setSingle uDel) || !setIsdisjoint old (setSingle uAdd) then .ok false
    else
      match new with
      | none => .error .dangling
      | some new =>
        .ok (setEq new (setUnion (setDiff old (setSingle uDel)) (setSingle uAdd)))

/-- `meta_transaction`. The caller rolls back. -/
def metaTransaction (types : Types) (inKernel : Bool) (k : Kern) (mem : Mem) (base : Nat)
    (ty : Word) (op : Op) (chk : Option USet → Option USet → Except Stop Bool) :
    Except Stop (Except XnErr Unit × Mem × Kern) :=
  if inKernel && xnIsspecial ty then .ok (.ok (), mem, k)
  else do
    match ← udfLookup types k mem base ty op.ownId with
    | (none, k) => return (.error .bogusIndex, mem, k)
    | (some (addr, b), k) =>
      let (r, k) ← udfGetset k addr b.readF op.ownId
      let (old, r, k) ← udfRun k mem base b.owns op.ownId r
      let mem := mvWriteUser mem base op.mv
      let (new, _, k) ← udfRun k mem base b.owns op.ownId r
      return (if ← chk old new then .ok () else .error .typeError, mem, k)

/-- `udf_alloc`. -/
def udfAlloc (types : Types) (inKernel : Bool) (k : Kern) (mem : Mem) (base : Nat) (ty : Word)
    (op : Op) : Except Stop (Except XnErr Unit × Mem × Kern) :=
  metaTransaction types inKernel k mem base ty op (add op.u)

/-- `udf_dealloc`. -/
def udfDealloc (types : Types) (inKernel : Bool) (k : Kern) (mem : Mem) (base : Nat) (ty : Word)
    (op : Op) : Except Stop (Except XnErr Unit × Mem × Kern) :=
  metaTransaction types inKernel k mem base ty op (remove op.u)

/-- `udf_move`. -/
def udfMove (types : Types) (inKernel : Bool) (k : Kern) (mem : Mem) (base : Nat) (ty : Word)
    (op : Op) (uAdd uDel : Upd) : Except Stop (Except XnErr Unit × Mem × Kern) :=
  metaTransaction types inKernel k mem base ty op (move uAdd uDel)

end Exokernel.Xn
