import Mathlib
import Exokernel.Lib.Bytes
import Exokernel.Lib.KeyedSet
import Exokernel.Lib.Outcome

/-!
# Untrusted functions — `ubb/interp.c`, `ubb/udf.c` and `ubb/check.c`

A user of XN describes the layout of a metadata type by functions in a small machine
language. Run on the bytes of an object, `owns` says which disk blocks the object points
to, and `read_f` says which bytes `owns` may look at.

**The registers are static.** What one function leaves in them is there when the next one
starts. `udf_check` puts instructions in front of a function that clear registers, but only
those that stand in the places of `rd` and `rs2`.

Whatever the code does not survive is a `Stop`: a failed `demand` or `assert`, a register or an
instruction outside its array, a division by zero, a store through a pointer that no longer
points to anything. The heap that sets are allocated from is taken to be large enough.
-/
set_option autoImplicit false

namespace Exokernel.Xn

open Outcome

/-! ## 1. Words, blocks and sets of them — `ubb/xn-struct.h` and `ubb/lib/set.h` -/

/-- A register, a `size_t` or a `db_t`. -/
abbrev Word := BitVec 32

/-- The kernel's memory, by address. -/
abbrev Mem := Store Unit

/-- `struct xn_update`: `nelem` elements of a type, from block `db` on. -/
structure Upd where
  db : Word
  nelem : Word
  type : Word
deriving DecidableEq, Repr

/-- `T_cmp`. The number of elements is not compared. -/
def tCmp (v₁ v₂ : Upd) : Int :=
  if v₁.db ≠ v₂.db then (v₁.db - v₂.db).toInt
  else if v₁.type ≠ v₂.type then (v₁.type - v₂.type).toInt
  else 0

abbrev USet := List Upd

def setSingle (u : Upd) : USet := [u]
def setUnion (s₁ s₂ : USet) : USet := KeyedSet.union tCmp s₁ s₂
def setDiff (s₁ s₂ : USet) : USet := KeyedSet.diff tCmp s₁ s₂
def setEq (s₁ s₂ : USet) : Bool := KeyedSet.eq tCmp s₁ s₂
def setIssubset (s sub : USet) : Bool := KeyedSet.isSubset tCmp s sub

/-- `set_isdisjoint`, which is true if an element of `s₁` is not in `s₂`. -/
def setIsdisjoint (s₁ s₂ : USet) : Bool := (setDiff s₁ s₂).length ≠ 0

/-! ## 2. Byte ranges -/

/-- `struct udf_bl`. -/
structure Bl where
  lb : Word
  ub : Word
deriving DecidableEq, Repr

/-- `udf_ext`. -/
abbrev Ext := List Bl

/-- `UDF_EXT_MAX`. -/
abbrev udfExtMax : Nat := 8

/-- `u_in_set`: the last byte may be the one at `ub`. -/
def uInSet (s : Ext) (lb len : Word) : Bool :=
  let ub := lb + len - 1
  s.any fun v => decide (v.lb ≤ lb) && decide (ub ≤ v.ub)

/-! ## 3. Instructions — `ubb/ubb-inst.h` -/

/-- The operations of `uop-classes.h`. -/
inductive Uop where
  | add | sub | div | mul | and | or | xor
  | beq | bne | blt | ble | bgt | bge
  | mov | neg | not
  | ldi | lds | ldb | sti | sts | stb
  | ret | j | addExt | addCext | indexLd | swSeg
deriving DecidableEq, Repr

/-- The `op` word of an instruction: an operation with a register or an immediate operand,
    one of the three numbers for which the interpreter has the entry `NIL`, or a number
    that is no operation. -/
inductive Code where
  | reg (o : Uop)
  | imm (o : Uop)
  | nil
  | bogus
deriving DecidableEq, Repr

/-- `u_valid_op` and `u_is_imm`. -/
def Code.valid : Code → Bool
  | .reg _ | .imm _ => true
  | .nil | .bogus => false

def Code.isImm : Code → Bool
  | .imm _ => true
  | .reg _ | .nil | .bogus => false

/-- `struct udf_inst`. The last word is a register or an immediate. -/
structure Inst where
  op : Code
  rd : Word
  rs1 : Word
  imm : Word
deriving DecidableEq, Repr

/-- `U_REG_MAX`, `UDF_INST_MAX` and `INST_BUDGET`. -/
abbrev uRegMax : Nat := 64
abbrev udfInstMax : Nat := 46
abbrev instBudget : Nat := 1024

/-- `udf_fun`. `insts` is the whole array, of which the first `ninst` are in use. -/
structure UdfFun where
  insts : List Inst
  ninst : Nat
  nargs : Nat
  isSet : Bool
deriving DecidableEq, Repr

/-! ## 4. Instructions are run — `udf_interp` -/

/-- Why the kernel stops: `fatal`, `demand` and `assert`; an index outside its array; code that
    leaves its array; a pointer that points to nothing; data taken for what it is not. **Only the
    first is a stop in the source as well**, where the others go on with whatever is there. -/
inductive Stop where
  | fatal | wild | left | dangling | confused | fuel
deriving DecidableEq, Repr

/-- What a function works on: the registers, and what `udf_access` and `udf_extent` point to,
    if they still point to something. -/
structure Cpu where
  regs : Nat → Word
  set : Option USet
  ext : Option Ext

/-- The memory that a function looks at. Without `reads` it may look at what `udf_extent`
    says, and so may extend what it looks at. -/
structure View where
  mem : Mem
  base : Nat
  reads : Option Ext

/-- `r_access`. -/
def View.access (v : View) (c : Cpu) : Ext := v.reads.getD (c.ext.getD [])

/-- The address of an offset; pointers wrap around. -/
def View.addr (v : View) (off : Word) : Nat := (v.base + off.toNat) % 2 ^ 32

/-- A register. -/
def Cpu.reg (c : Cpu) (r : Word) : Except Stop Word :=
  if r.toNat < uRegMax then .ok (c.regs r.toNat) else .error .wild

def Cpu.setReg (c : Cpu) (r w : Word) : Except Stop Cpu :=
  if r.toNat < uRegMax then .ok { c with regs := Function.update c.regs r.toNat w }
  else .error .wild

/-- `XN_BYTES`. -/
abbrev xnBytes : Word := 3

/-- The loop of `udf_add`. -/
def addBlocks (s : USet) (db n type : Word) : USet :=
  (List.range n.toNat).foldl
    (fun s i => setUnion s (setSingle ⟨db + BitVec.ofNat 32 i, n, type⟩)) s

/-- `udf_add`. -/
def udfAdd (c : Cpu) (db n type : Word) : Except Stop Cpu :=
  if type = xnBytes then
    match c.ext with
    | none => .error .dangling
    | some e =>
      if udfExtMax ≤ e.length then .error .fatal
      else .ok { c with ext := some (e ++ [⟨db, db + n⟩]) }
  else if db = 0 then .ok c
  else
    match c.set with
    | none => .error .dangling
    | some s => .ok { c with set := some (addBlocks s db n type) }

/-- `unsigned char`, `unsigned short` and `unsigned`. -/
inductive Width where
  | byte | half | word
deriving DecidableEq, Repr

def Width.bytes : Width → Nat
  | .byte => 1
  | .half => 2
  | .word => 4

/-- The value at an address. -/
def Width.ld (w : Width) (m : Mem) (a : Nat) : Word :=
  match w with
  | .byte => (m () a).setWidth 32
  | .half => (m.ld16 () a).setWidth 32
  | .word => m.ld32 () a

/-- What comes after an instruction: the next one, another one, or the caller. -/
inductive Next where
  | next (c : Cpu)
  | jump (d : Int) (c : Cpu)
  | ret (w : Word) (c : Cpu)

/-- `load`. -/
def load (v : View) (c : Cpu) (i : Inst) (w : Width) : Except Stop Next := do
  let off := i.imm + (← c.reg i.rs1)
  if uInSet (v.access c) off (BitVec.ofNat 32 w.bytes) then
    let c ← c.setReg i.rd (w.ld v.mem (v.addr off))
    return .next c
  else .error .fatal

/-- `bop`, with either operand. -/
def bop (c : Cpu) (i : Inst) (f : Word → Word → Word) (y : Except Stop Word) :
    Except Stop Next := do
  let c ← c.setReg i.rd (f (← c.reg i.rs1) (← y))
  return .next c

/-- `bop (/, im)`. -/
def divide (c : Cpu) (i : Inst) (y : Except Stop Word) : Except Stop Next := do
  if (← y) = 0 then .error .fatal
  else bop c i (· / ·) y

/-- `unary`, with either operand. -/
def unary (c : Cpu) (i : Inst) (f : Word → Word) (x : Except Stop Word) : Except Stop Next := do
  let c ← c.setReg i.rd (f (← x))
  return .next c

/-- The operator `!`. -/
def lnot (x : Word) : Word := if x = 0 then 1 else 0

/-- `u_cond`, with either operand. -/
def uCond (c : Cpu) (i : Inst) (r : Word → Word → Prop) [DecidableRel r] (y : Except Stop Word) :
    Except Stop Next := do
  return .jump (if r (← c.reg i.rd) (← y) then i.imm.toInt + 1 else 1) c

/-- `ADD_EXT` and its variants. -/
def addExt (c : Cpu) (i : Inst) (n type : Except Stop Word) : Except Stop Next := do
  let c ← udfAdd c (← c.reg i.rd) (← n) (← type)
  return .next c

/-- `XN_BOGUS_CTX`, which is what `udf_switch_seg` returns without a context. -/
abbrev xnBogusCtx : Word := -38

/-- An instruction with a register operand. `AND` has an immediate one all the same. -/
def stepReg (isSet : Bool) (i : Inst) (c : Cpu) : Uop → Except Stop Next
  | .add => bop c i (· + ·) (c.reg i.imm)
  | .sub => bop c i (· - ·) (c.reg i.imm)
  | .div => divide c i (c.reg i.imm)
  | .mul => bop c i (· * ·) (c.reg i.imm)
  | .and => bop c i (· &&& ·) (.ok i.imm)
  | .or => bop c i (· ||| ·) (c.reg i.imm)
  | .xor => bop c i (· ^^^ ·) (c.reg i.imm)
  | .beq => uCond c i (· = ·) (c.reg i.rs1)
  | .bne => uCond c i (· ≠ ·) (c.reg i.rs1)
  | .blt => uCond c i (· < ·) (c.reg i.rs1)
  | .ble => uCond c i (· ≤ ·) (c.reg i.rs1)
  | .bgt => uCond c i (· > ·) (c.reg i.rs1)
  | .bge => uCond c i (· ≥ ·) (c.reg i.rs1)
  | .mov => unary c i id (c.reg i.rs1)
  | .neg => unary c i (~~~·) (c.reg i.rs1)
  | .not => unary c i lnot (c.reg i.rs1)
  | .ret =>
    if isSet then .ok (.ret 1 c)
    else do return .ret (← c.reg i.rd) c
  | .addExt => addExt c i (c.reg i.rs1) (c.reg i.imm)
  | .addCext => addExt c i (.ok i.rs1) (c.reg i.imm)
  | .swSeg => .ok (if i.imm ≠ 0 then .ret xnBogusCtx c else .next c)
  | .ldi | .lds | .ldb | .sti | .sts | .stb | .j | .indexLd => .error .fatal

/-- An instruction with an immediate operand. Nothing may be stored: `w_access` is
    `no_access` in all the calls. -/
def stepImm (v : View) (i : Inst) (c : Cpu) : Uop → Except Stop Next
  | .add => bop c i (· + ·) (.ok i.imm)
  | .sub => bop c i (· - ·) (.ok i.imm)
  | .div => divide c i (.ok i.imm)
  | .mul => bop c i (· * ·) (.ok i.imm)
  | .and => bop c i (· &&& ·) (.ok i.imm)
  | .or => bop c i (· ||| ·) (.ok i.imm)
  | .xor => bop c i (· ^^^ ·) (.ok i.imm)
  | .beq => uCond c i (· = ·) (.ok i.rs1)
  | .bne => uCond c i (· ≠ ·) (.ok i.rs1)
  | .blt => uCond c i (· < ·) (.ok i.rs1)
  | .ble => uCond c i (· ≤ ·) (.ok i.rs1)
  | .bgt => uCond c i (· > ·) (.ok i.rs1)
  | .bge => uCond c i (· ≥ ·) (.ok i.rs1)
  | .mov => unary c i id (.ok i.imm)
  | .neg => unary c i (~~~·) (.ok i.imm)
  | .not => unary c i lnot (.ok i.imm)
  | .ldi => load v c i .word
  | .lds => load v c i .half
  | .ldb => load v c i .byte
  | .j => .ok (.jump i.imm.toInt c)
  | .ret => .ok (.ret i.imm c)
  | .addExt => addExt c i (c.reg i.rs1) (.ok i.imm)
  | .addCext => addExt c i (.ok i.rs1) (.ok i.imm)
  | .sti | .sts | .stb | .indexLd | .swSeg => .error .fatal

/-- One instruction. -/
def step (v : View) (isSet : Bool) (i : Inst) (c : Cpu) : Except Stop Next :=
  match i.op with
  | .reg o => stepReg isSet i c o
  | .imm o => stepImm v i c o
  | .nil => .ok (.ret 0 c)
  | .bogus => .error .wild

/-- The instruction at `ip`; there is none outside the array. -/
def fetch (insts : List Inst) (ip : Int) : Option Inst :=
  if 0 ≤ ip then insts[ip.toNat]? else none

/-- The threaded code of `udf_interp`. Only jumps look at the budget. -/
def exec (v : View) (f : UdfFun) : Nat → Int → Nat → Cpu → Except Stop (Word × Cpu)
  | 0, _, _, _ => .error .fuel
  | fuel + 1, ip, ninsts, c =>
    match fetch f.insts ip with
    | none => .error .left
    | some i =>
      match step v f.isSet i c with
      | .error e => .error e
      | .ok (.next c) => exec v f fuel (ip + 1) (ninsts + 1) c
      | .ok (.jump d c) =>
        if instBudget < ninsts then .error .fatal
        else exec v f fuel (ip + d) (ninsts + 1) c
      | .ok (.ret w c) => .ok (w, c)

/-- `udf_interp`. Register 0 is cleared and the parameters are put into the next ones. -/
def udfInterp (v : View) (f : UdfFun) (params : List Word) (c : Cpu) :
    Except Stop (Word × Cpu) :=
  exec v f (instBudget + 3 + f.insts.length) 0 0
    { c with regs := fun r => if r = 0 then 0 else params.getD (r - 1) (c.regs r) }

/-! ## 5. The budget is a bound -/

/-- Fuel that is enough: for the jumps that the budget still allows and one pass through the
    code, or, when there are none, for the rest of the code. -/
def Enough (len fuel : Nat) (ip : Int) (ninsts : Nat) : Prop :=
  (ninsts ≤ instBudget + 1 ∧ instBudget + 3 + len ≤ fuel + ninsts) ∨
    (instBudget + 1 < ninsts ∧ ip ≤ len ∧ (len : Int) + 1 ≤ fuel + ip)

theorem Enough.next {len fuel ninsts : Nat} {ip : Int} (h : Enough len (fuel + 1) ip ninsts)
    (h0 : 0 ≤ ip) (hlt : ip < len) : Enough len fuel (ip + 1) (ninsts + 1) := by
  simp only [Enough, instBudget] at *
  omega

theorem Enough.jump {len fuel ninsts : Nat} {ip ip' : Int} (h : Enough len (fuel + 1) ip ninsts)
    (hb : ¬instBudget < ninsts) : Enough len fuel ip' (ninsts + 1) := by
  simp only [Enough, instBudget] at *
  omega

/-- The registers that an instruction uses. -/
def Inst.regs (i : Inst) : List Word :=
  match i.op with
  | .reg .add | .reg .sub | .reg .div | .reg .mul | .reg .or | .reg .xor | .reg .addExt =>
    [i.rd, i.rs1, i.imm]
  | .reg .addCext => [i.rd, i.imm]
  | .reg .ret | .imm .mov | .imm .neg | .imm .not | .imm .addCext
  | .imm .beq | .imm .bne | .imm .blt | .imm .ble | .imm .bgt | .imm .bge => [i.rd]
  | .reg .swSeg | .imm .j | .imm .ret | .nil | .bogus => []
  | _ => [i.rd, i.rs1]

/-- The operation is one, and so are the registers. `udf_check` does not make sure of it. -/
def Inst.Valid (i : Inst) : Prop := i.op ≠ .bogus ∧ ∀ r ∈ i.regs, r.toNat < uRegMax

/-- `udf_access` and `udf_extent` point to something. -/
def Cpu.Live (c : Cpu) : Prop := c.set.isSome = true ∧ c.ext.isSome = true

/-- The state in which an instruction leaves the processor. -/
def Next.cpu : Next → Cpu
  | .next c => c
  | .jump _ c => c
  | .ret _ c => c

/-- The instruction may extend what its function looks at. -/
def Inst.addsBytes (i : Inst) : Bool :=
  match i.op with
  | .reg .addExt | .reg .addCext => true
  | .imm .addExt | .imm .addCext => i.imm = xnBytes
  | _ => false

section Step

variable {v : View} {i : Inst} {c : Cpu} {x y : Except Stop Word} {P : Cpu → Prop} {E : Stop → Prop}

theorem bop_ends {f : Word → Word → Word} (hx : Ends (fun _ => True) E (c.reg i.rs1))
    (hy : Ends (fun _ => True) E y) (hset : ∀ w, Ends P E (c.setReg i.rd w)) :
    Ends (fun nx => P nx.cpu) E (bop c i f y) :=
  hx.bind fun _ _ => hy.bind fun _ _ => (hset _).bind fun _ h => h

theorem divide_ends (hfatal : E .fatal) (hx : Ends (fun _ => True) E (c.reg i.rs1))
    (hy : Ends (fun _ => True) E y) (hset : ∀ w, Ends P E (c.setReg i.rd w)) :
    Ends (fun nx => P nx.cpu) E (divide c i y) := by
  refine hy.bind fun z _ => ?_
  split
  · exact hfatal
  · exact bop_ends hx hy hset

theorem unary_ends {f : Word → Word} (hx : Ends (fun _ => True) E x)
    (hset : ∀ w, Ends P E (c.setReg i.rd w)) : Ends (fun nx => P nx.cpu) E (unary c i f x) :=
  hx.bind fun _ _ => (hset _).bind fun _ h => h

theorem uCond_ends {r : Word → Word → Prop} [DecidableRel r]
    (hx : Ends (fun _ => True) E (c.reg i.rd)) (hy : Ends (fun _ => True) E y) (hc : P c) :
    Ends (fun nx => P nx.cpu) E (uCond c i r y) :=
  hx.bind fun _ _ => hy.bind fun _ _ => hc

theorem load_ends {w : Width} (hfatal : E .fatal) (hx : Ends (fun _ => True) E (c.reg i.rs1))
    (hset : ∀ w, Ends P E (c.setReg i.rd w)) : Ends (fun nx => P nx.cpu) E (load v c i w) := by
  refine hx.bind fun a _ => ?_
  dsimp only
  split
  · exact (hset _).bind fun _ h => h
  · exact hfatal

theorem addExt_ends (hdb : Ends (fun _ => True) E (c.reg i.rd)) (hx : Ends (fun _ => True) E x)
    (hy : Ends (fun _ => True) E y) (hadd : ∀ db n t, y = .ok t → Ends P E (udfAdd c db n t)) :
    Ends (fun nx => P nx.cpu) E (addExt c i x y) := by
  refine hdb.bind fun db _ => hx.bind fun n _ => ?_
  cases y with
  | error e => exact hy
  | ok t => exact (hadd db n t rfl).bind fun _ h => h

attribute [local simp] Inst.regs Inst.addsBytes

/-- **What an instruction comes to**, if registers and additions come to it. -/
theorem step_ends {isSet : Bool} (hfatal : E .fatal) (hbogus : i.op = .bogus → E .wild) (hc : P c)
    (hreg : ∀ r ∈ i.regs, Ends (fun _ => True) E (c.reg r))
    (hset : ∀ r ∈ i.regs, ∀ w, Ends P E (c.setReg r w))
    (hadd : ∀ db n t, (i.addsBytes = false → t ≠ xnBytes) → Ends P E (udfAdd c db n t)) :
    Ends (fun nx => P nx.cpu) E (step v isSet i c) := by
  obtain ⟨op, rd, rs1, imm⟩ := i
  unfold step
  cases op with
  | reg o =>
    cases o with
    | add | sub | mul | or | xor =>
      exact bop_ends (hreg _ (by simp)) (hreg _ (by simp)) (hset _ (by simp))
    | and => exact bop_ends (hreg _ (by simp)) trivial (hset _ (by simp))
    | div => exact divide_ends hfatal (hreg _ (by simp)) (hreg _ (by simp)) (hset _ (by simp))
    | beq | bne | blt | ble | bgt | bge =>
      exact uCond_ends (hreg _ (by simp)) (hreg _ (by simp)) hc
    | mov | neg | not => exact unary_ends (hreg _ (by simp)) (hset _ (by simp))
    | ret =>
      unfold stepReg
      dsimp only
      split
      · exact hc
      · exact (hreg _ (by simp)).bind fun _ _ => hc
    | swSeg =>
      unfold stepReg
      dsimp only
      split
      · exact hc
      · exact hc
    | addExt =>
      exact addExt_ends (hreg _ (by simp)) (hreg _ (by simp)) (hreg _ (by simp))
        fun db n t _ => hadd db n t (by simp)
    | addCext =>
      exact addExt_ends (hreg _ (by simp)) trivial (hreg _ (by simp))
        fun db n t _ => hadd db n t (by simp)
    | ldi | lds | ldb | sti | sts | stb | j | indexLd => exact hfatal
  | imm o =>
    cases o with
    | add | sub | mul | and | or | xor =>
      exact bop_ends (hreg _ (by simp)) trivial (hset _ (by simp))
    | div => exact divide_ends hfatal (hreg _ (by simp)) trivial (hset _ (by simp))
    | beq | bne | blt | ble | bgt | bge => exact uCond_ends (hreg _ (by simp)) trivial hc
    | mov | neg | not => exact unary_ends trivial (hset _ (by simp))
    | ldi | lds | ldb => exact load_ends hfatal (hreg _ (by simp)) (hset _ (by simp))
    | j | ret => exact hc
    | addExt =>
      refine addExt_ends (hreg _ (by simp)) (hreg _ (by simp)) trivial fun db n t ht => ?_
      cases ht
      exact hadd db n imm (by simp)
    | addCext =>
      refine addExt_ends (hreg _ (by simp)) trivial trivial fun db n t ht => ?_
      cases ht
      exact hadd db n imm (by simp)
    | sti | sts | stb | indexLd | swSeg => exact hfatal
  | nil => exact hc
  | bogus => exact hbogus rfl

theorem udfAdd_live (hc : c.Live) (db n t : Word) :
    Ends Cpu.Live (· = .fatal) (udfAdd c db n t) := by
  obtain ⟨s, hs⟩ := Option.isSome_iff_exists.mp hc.1
  obtain ⟨e, he⟩ := Option.isSome_iff_exists.mp hc.2
  unfold udfAdd
  rw [hs, he]
  split
  · dsimp only
    split
    · exact rfl
    · exact ⟨rfl, rfl⟩
  split
  · exact hc
  · exact ⟨rfl, rfl⟩

/-- **A valid instruction does not go astray.** -/
theorem step_valid {isSet : Bool} (hi : i.Valid) (hc : c.Live) :
    Ends (fun nx => nx.cpu.Live) (· = .fatal) (step v isSet i c) := by
  refine step_ends rfl (fun hop => absurd hop hi.1) hc (fun r hr => ?_) (fun r hr w => ?_)
    fun db n t _ => udfAdd_live hc db n t
  · rw [Cpu.reg, if_pos (hi.2 r hr)]
    trivial
  · rw [Cpu.setReg, if_pos (hi.2 r hr)]
    exact hc

end Step

theorem fetch_some {insts : List Inst} {ip : Int} {i : Inst} (h : fetch insts ip = some i) :
    0 ≤ ip ∧ ip < insts.length ∧ i ∈ insts := by
  unfold fetch at h
  split at h
  · have hlt := (List.getElem?_eq_some_iff.mp h).1
    exact ⟨by omega, by omega, List.mem_of_getElem? h⟩
  · cases h

/-- Fuel that is enough does not run out. -/
theorem exec_ends {v : View} {f : UdfFun} {fuel ninsts : Nat} {ip : Int} {c : Cpu}
    (hf : ∀ i ∈ f.insts, i.Valid) (hc : c.Live) (h : Enough f.insts.length fuel ip ninsts) :
    Ends (fun _ => True) (fun e => e = .fatal ∨ e = .left) (exec v f fuel ip ninsts c) := by
  induction fuel generalizing ip ninsts c with
  | zero =>
    simp only [Enough, instBudget] at h
    omega
  | succ fuel ih =>
    unfold exec
    cases hi : fetch f.insts ip with
    | none => exact .inr rfl
    | some i =>
      obtain ⟨h0, hlt, hmem⟩ := fetch_some hi
      dsimp only
      cases hs : step v f.isSet i c with
      | error e =>
        have hstep := hs ▸ step_valid (hf i hmem) hc
        exact .inl hstep
      | ok nx =>
        have hlive := (step_valid (hf i hmem) hc).ok hs
        cases nx with
        | next c₁ => exact ih hlive (h.next h0 hlt)
        | jump d c₁ =>
          dsimp only
          split
          · exact .inl rfl
          · rename_i hb
            exact ih hlive (h.jump hb)
        | ret w c₁ => trivial

/-- **Every function of valid instructions comes to an end**, or leaves its array: only jumps look
    at the budget, but the code is finite. -/
theorem udfInterp_ends (v : View) (f : UdfFun) (params : List Word) (c : Cpu)
    (hf : ∀ i ∈ f.insts, i.Valid) (hc : c.Live) :
    (udfInterp v f params c).isOk = true ∨ udfInterp v f params c = .error .fatal ∨
      udfInterp v f params c = .error .left := by
  have hends : Ends (fun _ => True) (fun e => e = .fatal ∨ e = .left) (udfInterp v f params c) :=
    exec_ends hf hc (.inl ⟨Nat.zero_le _, Nat.le_refl _⟩)
  cases hrun : udfInterp v f params c with
  | ok r => exact .inl rfl
  | error e =>
    rw [hrun] at hends
    rcases hends with rfl | rfl <;> simp

/-- The function that counts for ever. -/
theorem udfInterp_ends_loop :
    let run := udfInterp ⟨fun _ _ => 0, 0, none⟩
      ⟨[⟨.imm .add, 2, 2, 1⟩, ⟨.imm .j, 0, 0, -1⟩], 2, 0, true⟩ [] ⟨fun _ => 0, some [], some []⟩
    run.isOk = true ∨ run = .error .fatal ∨ run = .error .left :=
  udfInterp_ends _ _ _ _ (by simp [Inst.Valid, Inst.regs, uRegMax]) ⟨rfl, rfl⟩

end Exokernel.Xn
