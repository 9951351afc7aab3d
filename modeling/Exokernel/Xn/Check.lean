import Exokernel.Xn.Udf

/-!
# Types are checked — `ubb/check.c`

Before a type can be used its functions are checked and rewritten, and the byte ranges that
they may look at are compared: with each other, and with the ranges that users may write
without asking `owns`.

**`read_f` itself is not checked.** It is run once for each index, on whatever the registers
hold, and what it says then is what is compared.
-/
set_option autoImplicit false

namespace Exokernel.Xn

/-! ## 1. Functions — `udf_check` -/

/-- `u_valid_reg`. -/
def validReg (r : Word) : Bool := r.toNat < uRegMax

/-- The checks of one instruction. The test of `rs2` only counts if `rd` is bogus. The
    registers are put into a bit vector, which stops for a bogus one. -/
def checkInst (i : Inst) : Except Stop Bool :=
  if !i.op.valid then .ok false
  else if !validReg i.rd && (!i.op.isImm && !validReg i.imm) then .ok false
  else if !validReg i.rd || (!i.op.isImm && !validReg i.imm) then .error .fatal
  else
    match i.op with
    | .imm .sti | .imm .sts | .imm .stb => .error .fatal
    | .reg .ldi | .reg .lds | .reg .ldb | .reg .sti | .reg .sts | .reg .stb => .ok false
    | _ => .ok true

def checkInsts : List Inst → Except Stop Bool
  | [] => .ok true
  | i :: is => do
    if ← checkInst i then checkInsts is else return false

/-- The registers that are recorded for an instruction. -/
def Inst.recorded (i : Inst) (r : Nat) : Bool :=
  i.rd.toNat = r || (!i.op.isImm && i.imm.toNat = r)

/-- `u_movi` of 0 and `u_reti`. -/
def uMovi (r : Nat) : Inst := ⟨.imm .mov, BitVec.ofNat 32 r, 0, 0⟩
def uReti (w : Word) : Inst := ⟨.imm .ret, 0, 0, w⟩

/-- The instructions that clear the recorded registers. -/
def clearing (nargs : Nat) (body : List Inst) : List Inst :=
  ((List.range uRegMax).filter fun r =>
    decide (nargs < r) && body.any fun i => i.recorded r).map uMovi

/-- `udf_check`. The function is rewritten in place. More instructions than there is room for
    overwrite what comes after them. -/
def udfCheck (f : UdfFun) : Except Stop (Option UdfFun) :=
  if udfInstMax < f.ninst then .error .wild
  else do
    let body := f.insts.take f.ninst
    if ← checkInsts body then
      let insts := clearing f.nargs body ++ body ++ [uReti 1]
      if udfInstMax < insts.length then .error .wild
      else return some { f with
        insts := insts ++ f.insts.drop insts.length
        ninst := insts.length }
    else return none

/-! ## 2. Bit vectors — `ubb/lib/bit.c` -/

/-- A `Bit_T`. -/
abbrev Bits := Nat → Bool

/-- `Bit_set`, in a vector of `n` bits. -/
def bitSet (n : Nat) (s : Bits) (lo hi : Int) : Except Stop Bits :=
  if 0 ≤ lo ∧ hi < n ∧ lo ≤ hi then
    .ok fun b => decide (lo ≤ b ∧ (b : Int) ≤ hi) || s b
  else .error .fatal

/-- `Bit_count`. -/
def bitCount (n : Nat) (s : Bits) : Nat := (List.range n).countP fun b => s b

/-- `Bit_union` and `Bit_overlap`. -/
def bitUnion (s t : Bits) : Bits := fun b => s b || t b
def bitOverlap (n : Nat) (s t : Bits) : Bool := (List.range n).any fun b => s b && t b

/-- `extract_inset`. -/
def extractInset (n : Nat) (s : Bits) : Ext → Except Stop (Option Bits)
  | [] => .ok (some s)
  | v :: vs =>
    if v.ub < v.lb ∨ n < v.ub.toNat then .ok none
    else do
      let s ← bitSet n s v.lb.toNat (v.ub.toNat - 1)
      extractInset n s vs

/-! ## 3. Base types -/

/-- The loop of `check_base_type` from index `i` on. `rwset` has the bytes of the indices
    before; without a result the sets overlap or leave the object. -/
def checkReads (n : Nat) (t : UdfType) (b : BaseType) :
    Nat → Nat → Kern → Bits → Except Stop (Option Bits × Kern)
  | 0, _, k, rwset => .ok (some rwset, k)
  | m + 1, i, k, rwset => do
    let (r, k) ← udfGetset k t.addr b.readF (BitVec.ofNat 32 i)
    match ← extractInset n (fun _ => false) r.ext with
    | none => return (none, k)
    | some tset =>
      let rw := bitUnion rwset tset
      if bitCount n rw ≠ bitCount n rwset + bitCount n tset then return (none, k)
      else checkReads n t b m (i + 1) k rw

/-- `udf_init`: `owns` on an object that is all zero. Its result is not looked at. -/
def udfInit (t : UdfType) (b : BaseType) : Nat → Nat → Kern → Except Stop Kern
  | 0, _, k => .ok k
  | m + 1, i, k => do
    let (r, k) ← udfGetset k t.addr b.readF (BitVec.ofNat 32 i)
    match ← udfRun k zeroMem 0 b.owns (BitVec.ofNat 32 i) r with
    | (none, _, _) => .error .dangling
    | (some s, _, k) => if s.length ≠ 0 then return k else udfInit t b m (i + 1) k

/-- `check_base_type`. The number of indices is taken for an `int`. -/
def checkBaseType (k : Kern) (t : UdfType) (b : BaseType) :
    Except Stop (Option BaseType × Kern) :=
  let n := t.nbytes.toNat
  if t.nbytes.toInt < 0 then .error .fatal
  else do
    match ← udfCheck { b.owns with nargs := 1 } with
    | none => return (none, k)
    | some owns =>
      let b := { b with owns, readF := { b.readF with nargs := 1 } }
      match ← checkReads n t b b.nowns.toInt.toNat 0 k fun _ => false with
      | (none, k) => return (none, k)
      | (some rwset, k) =>
        match ← extractInset n (fun _ => false) b.rawWrite with
        | none => return (none, k)
        | some tset =>
          let k ← udfInit t b b.nowns.toNat 0 k
          return (if bitOverlap n rwset tset then none else some b, k)

/-! ## 4. Unions and structures -/

/-- `UDF_MAX_TYPES`. -/
abbrev udfMaxTypes : Nat := 48

/-- `xn_user_elem`. -/
def xnUserElem (ty : Word) : Bool := 4 < ty.toNat

/-- `u_set_eq`. Sets that fill the array are never equal. -/
def uSetEq (s₁ s₂ : Ext) : Bool := decide (s₁ = s₂) && decide (s₁.length < udfExtMax)

/-- `check_union`. -/
def checkUnion (types : Types) (k : Kern) (t : UdfType) (ty : List Word) :
    Except Stop (Option UdfType × Kern) := do
  let (w, k) ← udfGetUnionType k zeroMem 0 t
  if w ≠ 0 then return (none, k)
  match ← udfCheck t.getType with
  | none => return (none, k)
  | some getType =>
    let ok := ty.length ≠ 0 ∧ ty.length < udfMaxTypes ∧ ∀ w ∈ ty, xnUserElem w = true ∧
      ((types w).any fun t₁ => uSetEq t.typeAccess t₁.typeAccess && t.nbytes = t₁.nbytes) = true
    return (if ok then some { t with getType } else none, k)

/-- The loop of `check_struct`: structures among the parts are replaced by their parts. -/
def collapse (types : Types) : List Word → Nat → Option (List Word)
  | [], _ => some []
  | w :: ws, j =>
    if !xnUserElem w then none
    else
      match types w with
      | none => none
      | some t =>
        match t.body with
        | .struct es =>
          if udfMaxTypes ≤ es.length + j then none
          else (collapse types ws (j + es.length)).map (es ++ ·)
        | .base _ | .union _ => (collapse types ws (j + 1)).map (w :: ·)

/-- `check_struct`. -/
def checkStruct (types : Types) (t : UdfType) (ty : List Word) : Option UdfType :=
  if ty.length = 0 ∨ udfMaxTypes ≤ ty.length then none
  else (collapse types ty 0).map fun ty => { t with body := .struct ty }

/-- `check_methods`: the type as it is after a successful check. -/
def checkMethods (types : Types) (k : Kern) (t : UdfType) :
    Except Stop (Option UdfType × Kern) :=
  match t.body with
  | .base b =>
    (checkBaseType k t b).map fun (res, k) => (res.map fun b => { t with body := .base b }, k)
  | .union ty => checkUnion types k t ty
  | .struct ty => .ok (checkStruct types t ty, k)

/-- `udf_type_check`. -/
def udfTypeCheck (types : Types) (k : Kern) (t : UdfType) :
    Except Stop (Option UdfType × Kern) :=
  if t.nbytes = 0 then .ok (none, k)
  else (checkMethods types k t).map fun (res, k) => (if t.named then res else none, k)

end Exokernel.Xn
