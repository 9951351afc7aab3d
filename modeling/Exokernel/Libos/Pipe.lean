import Exokernel.Kern.Wk

/-!
# Pipes — `fd/pipe.c`

A pipe is a ring of bytes in shared memory, with a flag that tells a full ring from an empty
one. A reader that waits leaves the size of its buffer in `n`; the next writer copies into this
buffer directly, sets `done`, and puts what is left into the ring.

**Readiness is written three times**: in the loops of `pipe_read` and `pipe_write`, in
`pipe_select`, and in the predicates that a sleeping environment leaves with the kernel.

A call runs undisturbed from one point where it waits to the next. The environments to yield to
are left out, and so is the signal for a writer without a reader. The two steps of a copy over
the end of the ring are one copy here, modulo the size.
-/
set_option autoImplicit false

namespace Exokernel.Libos

/-! ## 1. The ring -/

/-- `PIPE_BUFFER_SIZE`. -/
abbrev pipeBufferSize : Nat := 8192

instance : NeZero pipeBufferSize := ⟨by decide⟩

/-- `struct pipe`; `inuse true` is the writer's end. `direct` are the bytes that the last direct
    copy put into the reader's buffer, `written` in number. -/
structure Pipe where
  inuse : Bool → Bool
  head : Fin pipeBufferSize
  tail : Fin pipeBufferSize
  full : Bool
  buffer : Fin pipeBufferSize → BitVec 8
  done : Bool
  n : Nat
  direct : List (BitVec 8)

/-- Why a call returns -1; `bad` sets no `errno`. -/
inductive PipeErr where
  | bad | again | intr | restart

/-- A call returns, or it waits with `final` bytes done. -/
inductive PipeStop (α : Type) where
  | returns (r : Except PipeErr α)
  | waits (final : Nat)

namespace Pipe

variable (p : Pipe)

/-- `PIPE_FULL`, `PIPE_EMPTY` and `PIPE_NBYTES`. -/
def isFull : Bool := decide (p.head = p.tail) && p.full
def isEmpty : Bool := decide (p.head = p.tail) && !p.full
def nbytes : Nat :=
  if p.isFull then pipeBufferSize
  else if p.tail ≤ p.head then p.head - p.tail.val
  else p.head + pipeBufferSize - p.tail

/-- `SET_HEAD` and `SET_TAIL`. -/
def setHead (val : Fin pipeBufferSize) : Pipe :=
  { p with head := val, full := if val = p.tail then true else p.full }
def setTail (val : Fin pipeBufferSize) : Pipe :=
  { p with tail := val, full := if p.head = val then false else p.full }

/-- `PIPE_INIT`, by which `get_pipep` takes a slot of which neither end is in use. -/
def init : Pipe :=
  { p with inuse := fun _ => true, head := 0, tail := 0, full := false, n := 0 }

/-- `pipewrite`, the part for the ring. -/
def fill (bs : List (BitVec 8)) : Nat × Pipe :=
  let total := min bs.length (pipeBufferSize - p.nbytes)
  let buffer := fun i => (bs.take total)[(i - p.head).val]?.getD (p.buffer i)
  (total, { p with buffer := buffer }.setHead (p.head + Fin.ofNat _ total))

/-- `pipewrite`. -/
def pipewrite (bs : List (BitVec 8)) : Nat × Pipe :=
  if 0 < p.n then
    let m := min bs.length p.n
    let p := { p with n := 0, done := true, direct := bs.take m }
    if m = bs.length then (m, p)
    else
      let (total, p) := p.fill (bs.drop m)
      (total + m, p)
  else p.fill bs

/-- `piperead`. -/
def piperead (nbyte : Nat) : List (BitVec 8) × Pipe :=
  let total := min nbyte p.nbytes
  ((List.range total).map fun i => p.buffer (p.tail + Fin.ofNat _ i),
    p.setTail (p.tail + Fin.ofNat _ total))

/-! ## 2. Calls -/

/-- The loop of `pipe_read`, until it returns or waits. -/
def readLoop (nb : Bool) : Nat → Pipe → Nat → List (BitVec 8) →
    Option (PipeStop (List (BitVec 8)) × Pipe)
  | 0, _, _, _ => none
  | fuel + 1, p, nbyte, final =>
    if nbyte = 0 then some (.returns (.ok final), { p with n := 0 })
    else if p.isEmpty then
      if !p.inuse true || !final.isEmpty then some (.returns (.ok final), { p with n := 0 })
      else if nb then some (.returns (.error .again), { p with n := 0 })
      else some (.waits 0, { p with n := nbyte, done := false })
    else
      let (bs, p) := p.piperead nbyte
      readLoop nb fuel p (nbyte - bs.length) (final ++ bs)

/-- `pipe_read`, on the end `writer`; `nb` is `CHECKNB`. -/
def pipeRead (writer nb : Bool) (nbyte : Nat) : Option (PipeStop (List (BitVec 8)) × Pipe) :=
  if writer then some (.returns (.error .bad), p) else readLoop nb (nbyte + 1) p nbyte []

/-- `pipe_read` after it has waited, perhaps woken by a signal. An assertion may fail. -/
def readWake (nb : Bool) (nbyte : Nat) (sig : Option PipeErr) :
    Option (PipeStop (List (BitVec 8)) × Pipe) :=
  if p.done then some (.returns (.ok p.direct), { p with n := 0 })
  else
    match sig with
    | some e => some (.returns (.error e), { p with n := 0 })
    | none => if p.isEmpty then readLoop nb (nbyte + 1) p nbyte [] else none

/-- The loop of `pipe_write`. -/
def writeLoop : Nat → Pipe → List (BitVec 8) → Nat → Option (PipeStop Nat × Pipe)
  | 0, _, _, _ => none
  | fuel + 1, p, bs, final =>
    if bs = [] then some (.returns (.ok final), p)
    else if !p.inuse false then
      some (.returns (if final = 0 then .error .intr else .ok final), p)
    else if p.isFull then some (.waits final, p)
    else
      let (total, p) := p.pipewrite bs
      writeLoop fuel p (bs.drop total) (final + total)

/-- `pipe_write`. -/
def pipeWrite (writer nb : Bool) (bs : List (BitVec 8)) : Option (PipeStop Nat × Pipe) :=
  if !writer then some (.returns (.error .bad), p)
  else if p.isFull && nb then some (.returns (.error .again), p)
  else writeLoop (bs.length + 1) p bs 0

/-- `pipe_close`. -/
def close (writer : Bool) : Pipe := { p with inuse := Function.update p.inuse writer false }

end Pipe

/-! ## 3. Select -/

/-- `pipe_select`; `rw` is true for `SELECT_WRITE`. -/
def Pipe.select (p : Pipe) : Bool → Bool → Bool
  | true, true => !p.isFull
  | false, false => !p.isEmpty
  | _, _ => true

/-- The words of a pipe that a predicate compares. -/
inductive PipeWord where
  | inuse (writer : Bool)
  | head | tail | full | done

/-- A `struct wk_term`, with the word for its address. -/
inductive PipeTerm where
  | var (w : PipeWord)
  | imm (i : BitVec 32)
  | op (o : WkOp)

def wkMkreadPred : List PipeTerm :=
  [.var (.inuse true), .imm 1, .op .neq, .op .or, .var .head, .var .tail, .op .neq, .op .or,
    .var .full, .imm 1, .op .eq, .op .or, .var .done, .imm 0, .op .neq]

def wkMkwritePred : List PipeTerm :=
  [.var (.inuse false), .imm 1, .op .neq, .op .or, .var .head, .var .tail, .op .neq, .op .or,
    .var .full, .imm 1, .op .neq]

/-- `pipe_select_pred`; an end that is always ready has no predicate. -/
def pipeSelectPred : Bool → Bool → Option (List PipeTerm)
  | true, true => some wkMkwritePred
  | false, false => some wkMkreadPred
  | _, _ => none

def Pipe.word (p : Pipe) : PipeWord → BitVec 32
  | .inuse writer => if p.inuse writer then 1 else 0
  | .head => BitVec.ofNat 32 p.head
  | .tail => BitVec.ofNat 32 p.tail
  | .full => if p.full then 1 else 0
  | .done => if p.done then 1 else 0

def PipeTerm.val (p : Pipe) : PipeTerm → BitVec 32
  | .var w => p.word w
  | .imm i => i
  | .op _ => 0

/-- Whether a sum of products holds, `acc` being the product so far. -/
def Pipe.holds (p : Pipe) (acc : Bool) : List PipeTerm → Bool
  | .op .or :: ts => acc || p.holds true ts
  | a :: b :: .op o :: ts => p.holds (acc && o.holds (a.val p) (b.val p)) ts
  | _ => acc

end Exokernel.Libos
