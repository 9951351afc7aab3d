import Exokernel.Dpf.Trie
import Exokernel.Lib.Bytes

/-!
# Classifying a packet — `fast-interp.c`

`dpf_iptr` walks the trie over a message and returns the id of the filter that takes it,
or 0. Every atom carries the label to jump to; the labels differ in what they leave out
because the atom has no sibling, no pid or no kid.

**A load is checked at its first byte only.** `load_lhs` copies four bytes from any offset
below the message's length and masks them afterwards, and the labels for aligned loads
read two or four bytes after the same test.

A shift calls the interpreter again for what is below it, on the rest of the message and
on the same stack: the inner call pops, and overwrites, what the outer one pushed.
Comparisons and shifts are followed here; the labels of actions are not.
-/
set_option autoImplicit false

namespace Exokernel.Dpf

/-! ## 1. The message -/

/-- Memory from the first byte of the message on. -/
abbrev Memory := Store Unit

/-- `load_lhs`, for a message of `n` bytes at `base`. -/
def loadLhs (mem : Memory) (base n : Nat) (ir : Ir) : Option (BitVec 32) :=
  if ir.offset.toNat < n then some (mem.ld32 () (base + ir.offset.toNat) &&& ir.mask) else none

/-- A load of one, two or four bytes. -/
def ldBytes (mem : Memory) (a : Nat) : Nat → BitVec 32
  | 1 => (mem () a).setWidth 32
  | 2 => (mem.ld16 () a).setWidth 32
  | _ => mem.ld32 () a

/-- The comparison at labels `EQ_X_8` to `EQ_MX_32`, of a load of `w` bytes. -/
def fastEq (mem : Memory) (base n : Nat) (ir : Ir) (w : Nat) (masked : Bool) : Bool :=
  let x := ldBytes mem (base + ir.offset.toNat) w
  decide (ir.offset.toNat < n) && decide ((if masked then x &&& ir.mask else x) = ir.val)

/-! ## 2. One label -/

/-- What `orstack` holds: atoms, and `done_atom` at the bottom. -/
inductive Ref where
  | atom (p : Ptr)
  | done
deriving DecidableEq, Repr

/-- What an atom makes the interpreter do: return, push a sibling (if there is one) and go
    to an atom (or, if there is none, to the top of the stack), or shift the message and
    call the interpreter for the kids. -/
inductive Act where
  | ret (pid : Nat)
  | goto (a push : Option Ptr) (failPid : Nat)
  | call (off : Nat) (kids : Option Ptr) (pid : Nat) (sib : Option Ptr)
deriving DecidableEq, Repr

/-- `ht_lookup` on the table of an atom. -/
def lookup (h : Heap) (x : Atom) (val : BitVec 32) : Except Trap (Option Atom) :=
  match x.ht with
  | none => .error .null
  | some ht =>
    match htLookup ht val h with
    | .error t => .error t
    | .ok ((none, _), _) => .ok none
    | .ok ((some p, _), _) =>
      match h.atom p with
      | none => .error .null
      | some hte => .ok (some hte)

/-- The entry of an atom's table for the message, if there is one. -/
def lookupLhs (h : Heap) (mem : Memory) (base n : Nat) (x : Atom) : Except Trap (Option Atom) :=
  match loadLhs mem base n x.ir with
  | none => .ok none
  | some lhs => lookup h x lhs

/-- The code at an atom's label. -/
def act (h : Heap) (mem : Memory) (base n : Nat) (x : Atom) (failPid : Nat) : Except Trap Act :=
  match x.code with
  | some (.eq nosib nopid) =>
    let sib := if nosib then none else x.next
    if loadLhs mem base n x.ir = some x.ir.val then
      .ok (.goto x.kids sib (if nopid then failPid else x.pid.toNat))
    else .ok (.goto sib none failPid)
  | some .eqNoKid =>
    if loadLhs mem base n x.ir = some x.ir.val then .ok (.ret x.pid.toNat)
    else .ok (.goto x.next none failPid)
  | some .x8 => .ok (.goto (if fastEq mem base n x.ir 1 false then x.kids else none) none failPid)
  | some .x16 => .ok (.goto (if fastEq mem base n x.ir 2 false then x.kids else none) none failPid)
  | some .x32 => .ok (.goto (if fastEq mem base n x.ir 4 false then x.kids else none) none failPid)
  | some .mx8 => .ok (.goto (if fastEq mem base n x.ir 1 true then x.kids else none) none failPid)
  | some .mx16 => .ok (.goto (if fastEq mem base n x.ir 2 true then x.kids else none) none failPid)
  | some .mx32 => .ok (.goto (if fastEq mem base n x.ir 4 true then x.kids else none) none failPid)
  | some (.deq nosib nopid) =>
    let sib := if nosib then none else x.next
    match lookupLhs h mem base n x with
    | .error t => .error t
    | .ok none => .ok (.goto sib none failPid)
    | .ok (some hte) => .ok (.goto hte.kids sib (if nopid then failPid else hte.pid.toNat))
  | some .deqNoKid =>
    match lookupLhs h mem base n x with
    | .error t => .error t
    | .ok none =>
      -- at the last sibling this label returns without looking at the stack
      if x.next.isSome then .ok (.goto x.next none failPid) else .ok (.ret failPid)
    | .ok (some hte) => .ok (.ret hte.pid.toNat)
  | some .shift =>
    match loadLhs mem base n x.ir with
    | none => .ok (.goto x.next none failPid)
    | some lhs =>
      let off := (lhs <<< (x.ir.shift.toNat % 32)).toNat
      if off ≤ n then .ok (.call off x.kids x.pid.toNat x.next)
      else .ok (.goto x.next none failPid)
  | some (.seq ..) | some .seqNoKid | some .action | none => .error .null

/-! ## 3. The interpreter -/

/-- The memory of `orstack[256]`. -/
abbrev Stack := Nat → Ref

/-- `if (n) *orstack++ = n`. -/
def pushOr (sp : Nat) (st : Stack) : Option Ptr → Option (Nat × Stack)
  | none => some (sp, st)
  | some p => if sp < 256 then some (sp + 1, Function.update st sp (.atom p)) else none

/-- `next`, up to the jump: return, or the atom to go on at and the new top. -/
def nextRef (a : Option Ptr) (failPid sp : Nat) (st : Stack) : Nat ⊕ Ref × Nat :=
  match a with
  | some a => .inr (.atom a, sp)
  | none => if failPid ≠ 0 then .inl failPid else .inr (st (sp - 1), sp - 1)

/-- `fast_interp` with `code` at the labels, jumping to `a`; `n` bytes of the message are
    left at `base`. -/
def fastInterp (h : Heap) (code : (base n : Nat) → Atom → (failPid : Nat) → Except Trap Act) :
    Nat → (base n : Nat) → Ref → (failPid sp : Nat) → Stack → Except Trap (Nat × Stack)
  | 0, _, _, _, _, _, _ => .error .loop
  | _ + 1, _, _, .done, failPid, _, st => .ok (failPid, st)
  | fuel + 1, base, n, .atom a, failPid, sp, st =>
    match h.atom a with
    | none => .error .null
    | some x =>
      match code base n x failPid with
      | .error t => .error t
      | .ok (.ret pid) => .ok (pid, st)
      | .ok (.goto a push failPid) =>
        match pushOr sp st push with
        | none => .error .overflow
        | some (sp, st) =>
          match nextRef a failPid sp st with
          | .inl pid => .ok (pid, st)
          | .inr (r, sp) => fastInterp h code fuel base n r failPid sp st
      | .ok (.call off kids pid sib) =>
        let inner : Except Trap (Nat × Stack) :=
          match kids with
          | none => .ok (pid, st)
          | some k => fastInterp h code fuel (base + off) (n - off) (.atom k) pid sp st
        match inner with
        | .error t => .error t
        | .ok (r, st) =>
          if r ≠ 0 then .ok (r, st)
          else
            match nextRef sib failPid sp st with
            | .inl pid => .ok (pid, st)
            | .inr (r, sp) => fastInterp h code fuel base n r failPid sp st

/-- The id for a message of `n` bytes with `code` at the labels. Above `orstack[0]` the
    stack is read only where it has been written. -/
def interpBy (h : Heap) (code : (base n : Nat) → Atom → (failPid : Nat) → Except Trap Act)
    (fuel n : Nat) : Except Trap Nat :=
  match h.atom dpfBase with
  | none => .error .null
  | some base =>
    match base.kids with
    | none => .ok 0
    | some a => (fastInterp h code fuel 0 n (.atom a) 0 1 fun _ => .done).map (·.1)

/-- `dpf_interp`, to which `dpf_iptr` points. -/
def dpfInterp (fuel : Nat) (h : Heap) (mem : Memory) (n : Nat) : Except Trap Nat :=
  interpBy h (act h mem) fuel n

end Exokernel.Dpf
