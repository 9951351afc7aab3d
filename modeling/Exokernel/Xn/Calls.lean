import Exokernel.Xn.Registry
import Exokernel.Xn.Udf

/-!
# The system calls of XN — `ubb/xn.c`

A call names a piece of metadata by its address on the disk and says how to change it. XN
finds the object in core, lets the functions of its type judge the change, and then brings
registry and freemap up to date.

**A call that fails in the middle undoes the change of the metadata by hand.** Before the
bytes are written they are saved (`checkpt`), and every path to an error after that writes
them back. What else has been done by then is undone separately, if at all.

What depends on something that is not modelled (what the user may read, whether there is
memory, what the stack holds) is a field of `Env`. The buffer cache is asked for a page each time;
the code remembers it in the entry (`xr_bind_bc`). Block numbers of `2^31` and more are the
negative ones.
-/
set_option autoImplicit false

namespace Exokernel.Xn

/-! ## 1. The state -/

/-- `page` is where the buffer cache has a block in memory; `start` is the static variable of
    `db_find_free`. -/
structure Sys where
  reg : Reg
  page : Db → Option Nat
  mem : Mem
  types : Types
  kern : Kern
  start : Nat

/-- What a call depends on besides its arguments: whether the caller may read the operation
    and its vectors and write to it, whether there is memory for the entry of a block, what
    is on the stack where a variable is not set, which buffers users have mapped. -/
structure Env where
  inKernel : Bool
  opReadable : Bool
  dbWritable : Bool
  readable : MVec → Bool
  mem : Db → Bool
  stack : Nat
  mapped : Db → Bool

/-- The outcome of a call: the kernel stops, or it returns a result. -/
abbrev Result := Except Stop (Except XnErr Unit × Sys)

/-- The state after a call; if the kernel stops, the one before. -/
def Sys.after (s : Sys) (r : Result) : Sys :=
  match r with
  | .ok (_, s') => s'
  | .error _ => s

/-- `type_size`. A size of `2^31` or more is taken for an error. -/
def typeSize (types : Types) (ty : Word) : Except XnErr Nat :=
  match types ty with
  | none => .error .bogusType
  | some t => if t.nbytes.toInt < 0 then .error .bogusType else .ok t.nbytes.toNat

/-- The loop of `type_extract` over the parts of a structure, the next of which is at
    `coff`. In the middle of a part, `exact` says whether that is an error; at its start
    `*not_exact` is not set. -/
def extractPart (types : Types) (offset stack : Nat) (exact : Bool) :
    Nat → List Word → Except Stop (Except XnErr (Word × Nat))
  | _, [] => .ok (.error .bogusType)
  | coff, w :: ws =>
    match types w with
    | none => .error .wild
    | some t =>
      if t.nbytes = 0 then .error .fatal
      else if coff = offset then .ok (.ok (w, stack))
      else if !exact && decide (offset < coff + t.nbytes.toNat) then .ok (.ok (w, offset - coff))
      else extractPart types offset stack exact (coff + t.nbytes.toNat) ws

/-- `type_extract`: the type of what is at an offset, and the offset within it. -/
def typeExtract (types : Types) (ty : Word) (offset stack : Nat) (exact : Bool) :
    Except Stop (Except XnErr (Word × Nat)) :=
  match types ty with
  | none => .error .wild
  | some t =>
    match t.body with
    | .base _ | .union _ =>
      if exact && decide (offset ≠ 0) then .error .fatal else .ok (.ok (ty, offset))
    | .struct tys => extractPart types offset stack exact 0 tys

/-- `off_to_sec`: the sector of an update, which must not reach into another one. -/
def offToSec (da : Da) (mv : List MVec) : Option Sec :=
  match mv with
  | [] => some (daToSec da)
  | v :: _ =>
    let sec := daToSec ((da + v.offset.toNat) % 2 ^ 32)
    if mv.all fun v =>
        let off := (da + v.offset.toNat) % 2 ^ 32
        decide (sec = daToSec off) && decide (sec = daToSec ((off + v.data.length - 1) % 2 ^ 32))
    then some sec
    else none

/-- What `build_env` finds: the entry of the block, where the object is in memory, its type,
    the descriptor of what the operation is about and the number of its blocks. -/
structure Target where
  p : Xr
  base : Nat
  ty : Word
  td : Td
  nblocks : Nat

/-- `build_env`. -/
def buildEnv (s : Sys) (env : Env) (da : Da) (op : Op) : Except Stop (Except XnErr Target) :=
  if !env.inKernel && !env.opReadable then .ok (.error .cannotAccess)
  else
    match xrLookup s.reg (daToDb da) with
    | none => .ok (.error .registryMiss)
    | some p =>
      match s.page (daToDb da) with
      | none => .ok (.error .notInCore)
      | some a =>
        match typeExtract s.types p.td.type (daToOffset da) env.stack true with
        | .error e => .error e
        | .ok (.error e) => .ok (.error e)
        | .ok (.ok (ty, _)) =>
          match typeSize s.types op.u.type with
          | .error e => .ok (.error e)
          | .ok size =>
            let td : Td := ⟨op.u.type, op.u.db.toNat, op.u.nelem.toNat, size⟩
            .ok (.ok ⟨p, a + daToOffset da, ty, td, bytesToBlocks td.bytes⟩)

/-- `checkpt`: the bytes that will be written, unless the vectors are refused. -/
def checkpt (s : Sys) (env : Env) (base size : Nat) (mv : List Elem) :
    Except Stop (Option (List MVec)) :=
  match mvAccess size env.readable (looks mv s.mem) with
  | .error e => .error e
  | .ok false => .ok none
  | .ok true => (mvRead s.mem base (looks mv s.mem)).map some

/-- `udf_rollback`. -/
def udfRollback (s : Sys) (base : Nat) (ckpt : List MVec) : Sys :=
  { s with mem := mvWrite s.mem base ckpt }

/-- Another memory and other static data. -/
def Sys.setMem (s : Sys) (mem : Mem) (kern : Kern) : Sys := { s with mem, kern }

def Sys.setReg (s : Sys) (reg : Reg) : Sys := { s with reg }

/-! ## 3. `sys_xn_alloc` -/

/-- `Bit_run_bounded`: the first of `n` blocks that are free, from `i` on. After a run that is
    too short the search goes on behind its end. -/
def bitRunBounded (used : Db → Bool) (end' n : Nat) : Nat → Nat → Option Db
  | 0, _ => none
  | fuel + 1, i =>
    if end' + 1 < i + n then none
    else if used i then bitRunBounded used end' n fuel (i + 1)
    else
      match (List.range' (i + 1) (n - 1)).find? used with
      | some j => bitRunBounded used end' n fuel (j + 1)
      | none => if n = 0 then bitRunBounded used end' n fuel (i + 2) else some i

/-- `Bit_run`. -/
def bitRun (used : Db → Bool) (start n : Nat) : Except Stop (Option Db) :=
  if xnNblocks < start + n then .error .fatal
  else
    match bitRunBounded used (xnNblocks - 1) n (xnNblocks + 1) start with
    | some b => .ok (some b)
    | none => .ok (if start = 0 then none else bitRunBounded used (start + n - 2) n (xnNblocks + 1) 0)

/-- `db_find_free` without a hint: the first of `n` free blocks, or 0, and where to look next
    time. -/
def dbFindFree (s : Sys) (n : Nat) : Except Stop (Db × Nat) :=
  match bitRun s.reg.used s.start n with
  | .error e => .error e
  | .ok none => .ok (0, s.start)
  | .ok (some b) =>
    if dbIsfree s.reg b n then
      let start := (b + n) % xnNblocks
      .ok (b, if start = 0 then 1 else start)
    else .error .fatal

/-- Where to allocate: at the block that the operation names, or anywhere. -/
def chooseDb (s : Sys) (env : Env) (u : Upd) (n : Nat) : Except Stop (Except XnErr Db × Nat) :=
  if u.db ≠ 0 then
    .ok (if dbIsfree s.reg u.db.toNat n then .ok u.db.toNat else .error .cannotAlloc, s.start)
  else
    match dbFindFree s n with
    | .error e => .error e
    | .ok (b, start) =>
      .ok (if b = 0 then .error .cannotAlloc
        else if env.inKernel || env.dbWritable then .ok b
        else .error .cannotAccess, start)

/-- The operation with the block that was chosen. -/
def Op.at (op : Op) (db : Db) : Op := { op with u := { op.u with db := BitVec.ofNat 32 db } }

/-- The second half of `sys_xn_alloc`, in which the allocation is committed. -/
def allocCommit (s : Sys) (env : Env) (da : Da) (op : Op) (t : Target) (ckpt : List MVec) :
    Result :=
  match udfAlloc s.types env.inKernel s.kern s.mem t.base t.ty op with
  | .error e => .error e
  | .ok (.error e, mem, k) => .ok (.error e, udfRollback (s.setMem mem k) t.base ckpt)
  | .ok (.ok (), mem, k) =>
    let s := s.setMem mem k
    match offToSec da (looks op.mv s.mem) with
    | none => .error .fatal
    | some sec =>
      if sec ≠ daToSec da ∨ sec = 0 then .error .fatal
      else
        match xrAlloc s.reg t.td.base t.nblocks t.td da sec env.mem with
        | none => .error .fatal
        | some (.error e, r) => .ok (.error e, udfRollback (s.setReg r) t.base ckpt)
        | some (.ok (), r) =>
          .ok (.ok (), s.setReg (((dbAlloc r t.td.base t.nblocks).getD r).mod (daToDb da) Xr.setDirty))

/-- `sys_xn_alloc`. -/
def sysXnAlloc (s : Sys) (env : Env) (da : Da) (op : Op) : Result :=
  match buildEnv s env da op with
  | .error e => .error e
  | .ok (.error e) => .ok (.error e, s)
  | .ok (.ok t) =>
    if t.p.locked then .ok (.error .locked, s)
    else
      match chooseDb s env op.u t.nblocks with
      | .error e => .error e
      | .ok (.error e, start) => .ok (.error e, { s with start })
      | .ok (.ok db, start) =>
        let s := { s with start }
        if t.nblocks = 0 then .ok (.error .bogusName, s)
        else
          match checkpt s env t.base t.p.td.size op.mv with
          | .error e => .error e
          | .ok none => .ok (.error .cannotAccess, s)
          | .ok (some ckpt) =>
            allocCommit s env da (op.at db) { t with td := { t.td with base := db } } ckpt

/-! ## 4. `sys_xn_free` -/

/-- The buffers of the blocks that have left the registry are given up, unless users have
    mapped them. -/
def flushFreed (s : Sys) (r : Reg) (env : Env) : Sys :=
  { s with
    reg := r
    page := fun b =>
      if (s.reg.xr b).isSome && (r.xr b).isNone && !env.mapped b then none else s.page b }

/-- The second half of `sys_xn_free`. If the entry of the metadata itself is gone it cannot
    be marked as dirty. -/
def freeCommit (s : Sys) (env : Env) (da : Da) (op : Op) (t : Target) (ckpt : List MVec) :
    Result :=
  match udfDealloc s.types env.inKernel s.kern s.mem t.base t.ty op with
  | .error e => .error e
  | .ok (.error e, mem, k) => .ok (.error e, udfRollback (s.setMem mem k) t.base ckpt)
  | .ok (.ok (), mem, k) =>
    let s := s.setMem mem k
    match xrDelete s.reg t.td.base t.nblocks with
    | none => .error .fatal
    | some (.error e, r) => .ok (.error e, udfRollback (flushFreed s r env) t.base ckpt)
    | some (.ok (), r) =>
      if (xrLookup r (daToDb da)).isNone then .error .dangling
      else .ok (.ok (), flushFreed s (r.mod (daToDb da) Xr.setDirty) env)

/-- `sys_xn_free`. -/
def sysXnFree (s : Sys) (env : Env) (da : Da) (op : Op) : Result :=
  match buildEnv s env da op with
  | .error e => .error e
  | .ok (.error e) => .ok (.error e, s)
  | .ok (.ok t) =>
    match checkpt s env t.base t.p.td.size op.mv with
    | .error e => .error e
    | .ok none => .ok (.error .cannotAccess, s)
    | .ok (some ckpt) =>
      if op.u.db.toInt ≤ 0 then .ok (.error .bogusName, s)
      else if t.nblocks = 0 then .ok (.error .tooSmall, s)
      else if dbIsfree s.reg t.td.base t.nblocks then .ok (.error .cannotFree, s)
      else if xnNblocks < t.td.base + t.nblocks then .ok (.error .cannotFree, s)
      else freeCommit s env da op t ckpt

/-! ## 5. `sys_xn_swap` -/

/-- `update_parent`, with the number of whole blocks. The size of a type that is not known
    is a negative number. -/
def updateParent (s : Sys) (p : Da) (u : Upd) : Sys :=
  let nbytes := match typeSize s.types u.type with
    | .ok n => n
    | .error _ => 2 ^ 32 - 5
  let n := u.nelem.toNat * nbytes % 2 ^ 32 / blockBytes
  s.setReg ((blocks u.db.toNat n).foldl (fun r b => r.mod b (Xr.setParent p)) s.reg)

/-- An object of `sys_xn_swap`: its entry and where it is in memory. -/
def swapTarget (s : Sys) (v : Da) : Except XnErr (Xr × Nat) :=
  match xrLookup s.reg (daToDb v) with
  | none => .error .registryMiss
  | some p =>
    match s.page (daToDb v) with
    | none => .error .notInCore
    | some a => .ok (p, a + daToOffset v)

/-- The second half of `sys_xn_swap`. -/
def swapCommit (s : Sys) (env : Env) (v₁ v₂ : Da) (op₁ op₂ : Op) (t₁ t₂ : Xr × Nat)
    (ckpt₁ ckpt₂ : List MVec) : Result :=
  match udfMove s.types env.inKernel s.kern s.mem t₁.2 t₁.1.td.type op₁ op₂.u op₁.u with
  | .error e => .error e
  | .ok (.error e, mem, k) => .ok (.error e, udfRollback (s.setMem mem k) t₁.2 ckpt₁)
  | .ok (.ok (), mem, k) =>
    match udfMove s.types env.inKernel k mem t₂.2 t₂.1.td.type op₂ op₁.u op₂.u with
    | .error e => .error e
    | .ok (.error e, mem, k) =>
      .ok (.error e, udfRollback (udfRollback (s.setMem mem k) t₁.2 ckpt₁) t₂.2 ckpt₂)
    | .ok (.ok (), mem, k) =>
      .ok (.ok (), updateParent (updateParent (s.setMem mem k) v₁ op₂.u) v₂ op₁.u)

/-- `sys_xn_swap`. -/
def sysXnSwap (s : Sys) (env : Env) (v₁ : Da) (op₁ : Op) (v₂ : Da) (op₂ : Op) : Result :=
  if !env.opReadable then .ok (.error .cannotAccess, s)
  else
    match swapTarget s v₁ with
    | .error e => .ok (.error e, s)
    | .ok t₁ =>
      match swapTarget s v₂ with
      | .error e => .ok (.error e, s)
      | .ok t₂ =>
        match checkpt s env t₁.2 t₁.1.td.size op₁.mv with
        | .error e => .error e
        | .ok none => .ok (.error .cannotAccess, s)
        | .ok (some ckpt₁) =>
          match checkpt s env t₂.2 t₂.1.td.size op₂.mv with
          | .error e => .error e
          | .ok none => .ok (.error .cannotAccess, s)
          | .ok (some ckpt₂) => swapCommit s env v₁ v₂ op₁ op₂ t₁ t₂ ckpt₁ ckpt₂

/-! ## 6. `sys_xn_writeb` -/

/-- `sys_xn_readin`; `frames` are the pages that `bc_read` takes. -/
def sysXnReadin (s : Sys) (env : Env) (db : Db) (nblocks : Nat) (bcRead : Bool)
    (frames : Db → Nat) : Result :=
  if db = 0 then .ok (.error .bogusName, s)
  else if nblocks = 0 then .ok (.error .tooSmall, s)
  else if !env.opReadable then .ok (.error .cannotAccess, s)
  else
    match xrBread s.reg db nblocks (fun b => (s.page b).isSome) bcRead with
    | (.error e, r) => .ok (.error e, s.setReg r)
    | (.ok (), r) =>
      .ok (.ok (), { s with
        reg := r
        page := fun b => if b ∈ blocks db nblocks then some (frames b) else s.page b })

/-- `sys_xn_writeback`. -/
def sysXnWriteback (s : Sys) (env : Env) (db : Db) (nblocks : Nat) (bcWrite : Bool) : Result :=
  if db = 0 then .ok (.error .bogusName, s)
  else if nblocks = 0 then .ok (.error .tooSmall, s)
  else if !env.opReadable then .ok (.error .cannotAccess, s)
  else
    let (res, r) := xrBwrite s.reg db nblocks (fun b => (s.page b).isSome) bcWrite
    .ok (res, s.setReg r)

end Exokernel.Xn
