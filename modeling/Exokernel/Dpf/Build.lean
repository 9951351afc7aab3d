import Exokernel.Dpf.Atom

/-!
# Writing filters — `dpf/dpf-ir.c` and `dpf/xlate.c`

A filter is written by calls that append atoms to a `struct dpf_ir`. A shift by a constant
appends nothing: `dpf_shifti` adds it to an offset that the comparisons after it add to
their own. **A computed shift neither uses that offset nor keeps it.**

`dpf_xlate` makes the calls for a program of the older format, in which a comparison is a group
of two or three instructions. It is given the number of instructions, and tests it once
per group.

`fatal` stops the kernel; a call that does has no result.
-/
set_option autoImplicit false

namespace Exokernel.Dpf

/-! ## 1. The calls -/

/-- `struct dpf_ir`: the atoms so far, and `moffset`. -/
structure DpfIr where
  ir : List Ir
  moffset : BitVec 32
deriving DecidableEq

/-- `dpf_begin`. -/
def dpfBegin : DpfIr := ⟨[], 0⟩

/-- `alloc`, with the atom that is put there. -/
def DpfIr.append (s : DpfIr) (a : Ir) : Option DpfIr :=
  if maxelem ≤ s.ir.length then none else some { s with ir := s.ir ++ [a] }

/-- How much of the message is compared. -/
inductive Width where
  | w8 | w16 | w32
deriving DecidableEq, Repr

def Width.bytes : Width → Nat
  | .w8 => 1
  | .w16 => 2
  | .w32 => 4

abbrev Width.bits (w : Width) : Nat := 8 * w.bytes

/-- `dpf_meq8`, `dpf_meq16` and `dpf_meq32`. The mask has the type of the value, so the test
    that it does not exceed its width never fails. -/
def dpfMeq (w : Width) (s : DpfIr) (offset : BitVec 16) (mask val : BitVec w.bits) :
    Option DpfIr :=
  s.append (mkeq (BitVec.ofNat 8 w.bits) (offset + s.moffset.setWidth 16) (mask.setWidth 32)
    (val.setWidth 32))

def dpfMeq8 := dpfMeq .w8
def dpfMeq16 := dpfMeq .w16
def dpfMeq32 := dpfMeq .w32

def dpfEq8 (s : DpfIr) (offset : BitVec 16) (val : BitVec 8) := dpfMeq8 s offset 0xff val
def dpfEq16 (s : DpfIr) (offset val : BitVec 16) := dpfMeq16 s offset 0xffff val
def dpfEq32 (s : DpfIr) (offset : BitVec 16) (val : BitVec 32) := dpfMeq32 s offset 0xffffffff val

/-- `dpf_mshift8`, `dpf_mshift16` and `dpf_mshift32`. -/
def dpfMshift (w : Width) (s : DpfIr) (offset : BitVec 16) (mask : BitVec w.bits)
    (shift : BitVec 8) : Option DpfIr :=
  { s with moffset := 0 }.append
    (mkshift (BitVec.ofNat 8 w.bits) offset (mask.setWidth 32) shift)

def dpfMshift8 := dpfMshift .w8
def dpfMshift16 := dpfMshift .w16
def dpfMshift32 := dpfMshift .w32

def dpfShift8 (s : DpfIr) (offset : BitVec 16) (shift : BitVec 8) := dpfMshift8 s offset 0xff shift
def dpfShift16 (s : DpfIr) (offset : BitVec 16) (shift : BitVec 8) :=
  dpfMshift16 s offset 0xffff shift
def dpfShift32 (s : DpfIr) (offset : BitVec 16) (shift : BitVec 8) :=
  dpfMshift32 s offset 0xffffffff shift

/-- `dpf_shifti`. -/
def dpfShifti (s : DpfIr) (offset : BitVec 16) : DpfIr :=
  { s with moffset := s.moffset + offset.setWidth 32 }

/-- A call. The ones without a mask are calls with a mask of ones. -/
inductive IrCall where
  | meq (w : Width) (offset : BitVec 16) (mask val : BitVec w.bits)
  | mshift (w : Width) (offset : BitVec 16) (mask : BitVec w.bits) (shift : BitVec 8)
  | shifti (offset : BitVec 16)

def IrCall.exec (s : DpfIr) : IrCall → Option DpfIr
  | meq w offset mask val => dpfMeq w s offset mask val
  | mshift w offset mask shift => dpfMshift w s offset mask shift
  | shifti offset => some (dpfShifti s offset)

/-- A sequence of calls. -/
def build : DpfIr → List IrCall → Option DpfIr
  | s, [] => some s
  | s, c :: cs => (c.exec s).bind fun s => build s cs

/-! ## 2. The older format -/

/-- The operations that `dpf_xlate` knows, and the others. -/
inductive OldOp where
  | eqi | andi | bits8i | bits16i | bits32i | other
deriving DecidableEq, Repr

/-- `struct dpf_frozen_ir`: what is looked at. -/
structure FrozenIr where
  op : OldOp
  imm : BitVec 32
deriving DecidableEq, Repr

/-- The `switch` of `dpf_xlate`. -/
def xlateLoad (s : DpfIr) (x : FrozenIr) (mask val : BitVec 32) : Option DpfIr :=
  match x.op with
  | .bits8i => dpfMeq8 s (x.imm.setWidth 16) (mask.setWidth 8) (val.setWidth 8)
  | .bits16i => dpfMeq16 s (x.imm.setWidth 16) (mask.setWidth 16) (val.setWidth 16)
  | .bits32i => dpfMeq32 s (x.imm.setWidth 16) mask val
  | .eqi | .andi | .other => none

/-- The loop of `dpf_xlate` from instruction `i` on: the indices that it reads, and the filter.
    `ir` is memory from the first instruction on. -/
def xlateLoop (ir : Nat → FrozenIr) (nelems : Nat) :
    Nat → Nat → DpfIr → List Nat × Option DpfIr
  | 0, _, s => ([], some s)
  | fuel + 1, i, s =>
    if nelems ≤ i then ([], some s)
    else if (ir i).op ≠ .eqi then ([i], none)
    else
      let masked := (ir (i + 1)).op = .andi
      let mask := if masked then (ir (i + 1)).imm else 0xffffffff
      let j := if masked then i + 2 else i + 1
      let reads := if masked then [i, i + 1, i + 2] else [i, i + 1]
      match xlateLoad s (ir j) mask (ir i).imm with
      | none => (reads, none)
      | some s =>
        let (more, r) := xlateLoop ir nelems fuel (j + 1) s
        (reads ++ more, r)

/-- `dpf_xlate`. A round takes two instructions at least, so `nelems` rounds are enough. -/
def dpfXlate (ir : Nat → FrozenIr) (nelems : Nat) : List Nat × Option DpfIr :=
  xlateLoop ir nelems nelems 0 dpfBegin

end Exokernel.Dpf
