import Exokernel.Lib.Outcome
import Exokernel.Xn.Interp

/-!
# What the assembler macros mean — `ubb/ubb-inst.h`

Functions are written with macros, one for each mnemonic. `Asm.inst` is the instruction that a
macro makes, and `Asm.means` reads the mnemonic literally.

**The interpreter looks for some operands where the macros do not put them.** `u_and` is run with
the number of its last register for an operand. `u_movi`, `u_negi` and `u_noti` leave the immediate
in the place of `rs1`, and 0 is what the interpreter finds in its own. Both jumps get an opcode that
stops the kernel, and a `u_ret` returns 1 in a function whose result is a set.
-/
set_option autoImplicit false

namespace Exokernel.Xn

/-! ## 1. Mnemonics -/

/-- `u_add` to `u_xor`. -/
inductive BinOp where
  | add | sub | div | mul | and | or | xor

/-- `u_beq` to `u_bge`. -/
inductive RelOp where
  | beq | bne | blt | ble | bgt | bge

/-- `u_mov`, `u_neg` and `u_not`. -/
inductive UnOp where
  | mov | neg | not

/-- A line of a program. With `imm` it is the mnemonic with an `i`, and the last source is an
    immediate. -/
inductive Asm where
  | bin (o : BinOp) (imm : Bool) (rd rs1 y : Word)
  | branch (o : RelOp) (imm : Bool) (rs1 y offset : Word)
  | un (o : UnOp) (imm : Bool) (rd x : Word)
  | ld (w : Width) (rd rs1 imm : Word)
  | ret (rd : Word)
  | reti (imm : Word)
  | j (rd : Word)
  | ji (imm : Word)

def BinOp.uop : BinOp → Uop
  | add => .add | sub => .sub | div => .div | mul => .mul | and => .and | or => .or | xor => .xor

def RelOp.uop : RelOp → Uop
  | beq => .beq | bne => .bne | blt => .blt | ble => .ble | bgt => .bgt | bge => .bge

def UnOp.uop : UnOp → Uop
  | mov => .mov | neg => .neg | not => .not

def Width.uop : Width → Uop
  | byte => .ldb | half => .lds | word => .ldi

def Uop.code (imm : Bool) (o : Uop) : Code := if imm then .imm o else .reg o

/-- The macros: what they pass to `u_bop`. -/
def Asm.inst : Asm → Inst
  | bin o imm rd rs1 y => ⟨o.uop.code imm, rd, rs1, y⟩
  | branch o imm rs1 y offset => ⟨o.uop.code imm, rs1, y, offset⟩
  | un o imm rd x => ⟨o.uop.code imm, rd, x, 0⟩
  | ld w rd rs1 imm => ⟨.imm w.uop, rd, rs1, imm⟩
  | ret rd => ⟨.reg .ret, rd, 0, 0⟩
  | reti imm => ⟨.imm .ret, 0, 0, imm⟩
  | j rd => ⟨.reg .j, rd, 0, 0⟩
  | ji imm => ⟨.reg .j, 0, 0, imm⟩

/-! ## 2. Reading them literally -/

def BinOp.apply : BinOp → Word → Word → Word
  | add, x, y => x + y
  | sub, x, y => x - y
  | div, x, y => x / y
  | mul, x, y => x * y
  | and, x, y => x &&& y
  | or, x, y => x ||| y
  | xor, x, y => x ^^^ y

def RelOp.holds : RelOp → Word → Word → Bool
  | beq, x, y => x = y
  | bne, x, y => x ≠ y
  | blt, x, y => x < y
  | ble, x, y => x ≤ y
  | bgt, x, y => x > y
  | bge, x, y => x ≥ y

def UnOp.apply : UnOp → Word → Word
  | mov, x => x
  | neg, x => ~~~x
  | not, x => lnot x

/-- An immediate, or what a register holds. -/
def Cpu.operand (c : Cpu) (imm : Bool) (y : Word) : Except Stop Word :=
  if imm then .ok y else c.reg y

/-- **The literal reading of a line.** There is no quotient by 0, and a load is from the bytes that
    the function may look at. -/
def Asm.means (v : View) (c : Cpu) : Asm → Except Stop Next
  | bin o imm rd rs1 y => do
    let x ← c.reg rs1
    let y ← c.operand imm y
    if o.uop = .div ∧ y = 0 then .error .fatal
    else return .next (← c.setReg rd (o.apply x y))
  | branch o imm rs1 y offset => do
    let x ← c.reg rs1
    let y ← c.operand imm y
    return .jump (if o.holds x y then offset.toInt + 1 else 1) c
  | un o imm rd x => do
    let x ← c.operand imm x
    return .next (← c.setReg rd (o.apply x))
  | ld w rd rs1 imm => do
    let off := imm + (← c.reg rs1)
    if uInSet (v.access c) off (BitVec.ofNat 32 w.bytes) then
      return .next (← c.setReg rd (w.ld v.mem (v.addr off)))
    else .error .fatal
  | ret rd => do return .ret (← c.reg rd) c
  | reti imm => return .ret imm c
  | j rd => do return .jump (← c.reg rd).toInt c
  | ji imm => return .jump imm.toInt c

/-- At most `n` lines of a program, read literally from line `ip` on. -/
def Asm.run (v : View) (prog : List Asm) : Nat → Int → Cpu → Except Stop (Word × Cpu)
  | 0, _, _ => .error .fuel
  | n + 1, ip, c =>
    match if 0 ≤ ip then prog[ip.toNat]? else none with
    | none => .error .left
    | some a => do
      match ← a.means v c with
      | .next c => run v prog n (ip + 1) c
      | .jump d c => run v prog n (ip + d) c
      | .ret w c => .ok (w, c)

/-- The lines that it comes to. -/
def Asm.visited (v : View) (prog : List Asm) : Nat → Int → Cpu → List Asm
  | 0, _, _ => []
  | n + 1, ip, c =>
    match if 0 ≤ ip then prog[ip.toNat]? else none with
    | none => []
    | some a => a :: match a.means v c with
      | .ok (.next c) => visited v prog n (ip + 1) c
      | .ok (.jump d c) => visited v prog n (ip + d) c
      | _ => []

/-! ## 3. The interpreter -/

/-- The lines whose operands are where the interpreter looks for them. -/
def Asm.Plain (isSet : Bool) : Asm → Prop
  | bin .and false _ _ _ => False
  | un _ true _ x => x = 0
  | ret _ => isSet = false
  | j _ | ji _ => False
  | _ => True

section
variable {v : View} {isSet : Bool} {c : Cpu} {nx : Next}

theorem Asm.Plain.step {a : Asm} (h : a.Plain isSet) (hm : a.means v c = .ok nx) :
    step v isSet a.inst c = .ok nx := by
  cases a with
  | bin o imm rd rs1 y =>
    obtain ⟨x, hx, hm⟩ := Outcome.bind_ok.mp hm
    obtain ⟨z, hz, hm⟩ := Outcome.bind_ok.mp hm
    split at hm
    · cases hm
    rename_i hdiv
    obtain ⟨c₁, hc₁, hm⟩ := Outcome.bind_ok.mp hm
    cases o <;> cases imm <;>
      simp_all [Xn.step, Asm.inst, Uop.code, BinOp.uop, stepReg, stepImm, bop, divide, Cpu.operand,
        BinOp.apply, Asm.Plain, bind, Except.bind]
  | branch o imm rs1 y offset =>
    obtain ⟨x, hx, hm⟩ := Outcome.bind_ok.mp hm
    obtain ⟨z, hz, hm⟩ := Outcome.bind_ok.mp hm
    cases o <;> cases imm <;>
      simp_all [Xn.step, Asm.inst, Uop.code, RelOp.uop, stepReg, stepImm, uCond, Cpu.operand,
        RelOp.holds, bind, Except.bind]
  | un o imm rd x =>
    obtain ⟨z, hz, hm⟩ := Outcome.bind_ok.mp hm
    cases o <;> cases imm <;>
      simp_all [Xn.step, Asm.inst, Uop.code, UnOp.uop, stepReg, stepImm, unary, Cpu.operand,
        UnOp.apply, Asm.Plain, bind, Except.bind]
  | ld w rd rs1 imm =>
    cases w <;> exact hm
  | ret rd =>
    obtain rfl : isSet = false := h
    exact hm
  | reti imm => exact hm
  | j rd => exact h.elim
  | ji imm => exact h.elim

end

/-- What the registers hold at the start. -/
def Cpu.start (c : Cpu) (params : List Word) : Cpu :=
  { c with regs := fun r => if r = 0 then 0 else params.getD (r - 1) (c.regs r) }

end Exokernel.Xn
