import Mathlib

/-!
# Fork and copy-on-write — `os/fork.c`, `os/cow.c`, `os/fault.c`

`fork1` walks through the address space of the parent. A private page is entered into the child
as copy-on-write, and made copy-on-write in the parent. The entries for the child are collected
and inserted 128 at a time; the pages of the parent are protected a contiguous range at a time.

**The two happen at different moments, and the parent can fault in between.** Its handler looks
at the number of mappings of the page and does not copy a page that is mapped only once.

Pages are numbered: `va` is the number of a virtual page. A system call is one step, and
`bcopy` of a page is one. The page behind `FORK_TEMP_PG` is entered into the child in the step
that copies it. Failures of system calls, after which `fork1` gives up the child, are left out.

So are the reserved pages, one of which `do_cow_fault` takes (`__remap_reserved_page`) and
`__replinish` replaces: here it takes any page that is not mapped. They lie below `USTACKTOP`,
where `fork1` gives the child copies, and only the handler uses them, so each side has its own.
-/
set_option autoImplicit false

namespace Exokernel.Libos

/-! ## 1. Pages -/

/-- A page table entry that is present, with `PG_W`, `PG_SHARED`, `PG_COW` and `PG_RO`. -/
structure Pte where
  ppn : Nat
  w : Bool
  shared : Bool
  cow : Bool
  ro : Bool
deriving DecidableEq, Repr

/-- What `WRITE_PROTECT` makes of an entry. -/
def Pte.protect (e : Pte) : Pte := { e with w := false, cow := true }

/-- `uncow_pte`. -/
def Pte.uncow (e : Pte) : Pte := { e with cow := false, w := !e.ro || e.w }

inductive Side where
  | parent
  | child
deriving DecidableEq, Repr

def Side.other : Side → Side
  | .parent => .child
  | .child => .parent

/-- `UTOP`, `__stkbot`, `USTACKTOP` and `UADDR`. -/
structure Layout where
  utop : Nat
  stkbot : Nat
  ustacktop : Nat
  uaddr : Nat

/-- A page of the stack. -/
def Layout.stack (L : Layout) (va : Nat) : Bool := decide (L.stkbot ≤ va ∧ va < L.ustacktop)

abbrev batch : Nat := 128

/-- The pages behind one entry of a page directory. -/
abbrev dirPages : Nat := 1024

/-- A byte of a page. -/
abbrev Contents := Nat → BitVec 8

/-! ## 2. State -/

/-- Where `do_cow_fault` is; `n` is the page behind `COW_TEMP_PG`. -/
inductive CowPc where
  | test
  | grab
  | alloc
  | copy (n : Nat)
  | insert (n : Nat)
  | unmap (n : Nat)
deriving DecidableEq, Repr

def CowPc.temp : CowPc → Option Nat
  | .copy n | .insert n | .unmap n => some n
  | _ => none

/-- A call of `do_cow_fault`. -/
structure CowFault where
  va : Nat
  pte : Pte
  pc : CowPc
deriving DecidableEq, Repr

/-- Where `fork1` is. -/
inductive ForkPc where
  | top
  | scan
  | protect
  | endProtect
  | endInsert
  | ready
  | done
deriving DecidableEq, Repr

/-- The variables of `fork1`. -/
structure Fork where
  va : Nat
  insertStart : Nat
  ptes : List (Option Pte)
  protStart : Nat
  protPgs : Nat
  pc : ForkPc
deriving DecidableEq, Repr

/-- `va` is one of the pages whose entry is in `ptes`. -/
def Fork.Pending (f : Fork) (va : Nat) : Prop :=
  f.insertStart ≤ va ∧ va < f.insertStart + f.ptes.length

/-- `va` is one of the pages that the next `WRITE_PROTECT` is for. -/
def Fork.InProt (f : Fork) (va : Nat) : Prop :=
  f.protStart ≤ va ∧ va < f.protStart + f.protPgs

instance (f : Fork) (va : Nat) : Decidable (f.Pending va) := inferInstanceAs (Decidable (_ ∧ _))
instance (f : Fork) (va : Nat) : Decidable (f.InProt va) := inferInstanceAs (Decidable (_ ∧ _))

/-- The contents of physical pages, the mappings of a page by other processes, whether it is in
    the buffer cache, the page directory of the parent, the two address spaces, and where the
    handlers and `fork1` are. -/
structure Vm where
  data : Nat → Contents
  others : Nat → Nat
  buf : Nat → Bool
  pd : Nat → Bool
  space : Side → Nat → Option Pte
  fault : Side → Option CowFault
  fork : Fork

/-- The mappings of a page in one address space. -/
def mappings (L : Layout) (s : Vm) (A : Side) (p : Nat) : Nat :=
  (List.range L.utop).countP fun va => (s.space A va).any (·.ppn == p)

/-- The mapping of a page at `COW_TEMP_PG`. -/
def tempMappings (s : Vm) (A : Side) (p : Nat) : Nat :=
  if (s.fault A).bind (·.pc.temp) = some p then 1 else 0

/-- `pp_refcnt`. -/
def ppRefcnt (L : Layout) (s : Vm) (p : Nat) : Nat :=
  mappings L s .parent p + mappings L s .child p + tempMappings s .parent p +
    tempMappings s .child p + s.others p

/-- One of the two has the page for itself. -/
def isPrivate (L : Layout) (s : Vm) (p : Nat) : Bool :=
  [Side.parent, Side.child].any fun A =>
    (List.range L.utop).any (fun va => (s.space A va).any fun e => e.ppn == p && !e.shared) ||
      (s.fault A).bind (·.pc.temp) == some p

def setSpace (σ : Side → Nat → Option Pte) (A : Side) (va : Nat) (o : Option Pte) :
    Side → Nat → Option Pte :=
  fun B v => if B = A ∧ v = va then o else σ B v

/-! ## 3. `do_cow_fault` -/

/-- One step; `n` is the page that is allocated. -/
def cowStep (L : Layout) (s : Vm) (A : Side) (f : CowFault) (n : Nat) : Option Vm :=
  let goto pc := { s with fault := Function.update s.fault A (some { f with pc := pc }) }
  match f.pc with
  | .test =>
    some (if ppRefcnt L s f.pte.ppn = 1 ∧ s.buf f.pte.ppn = false then goto .grab
      else goto .alloc)
  | .grab =>
    some { s with
      space := setSpace s.space A f.va ((s.space A f.va).map Pte.uncow)
      fault := Function.update s.fault A none }
  | .alloc => if ppRefcnt L s n = 0 then some (goto (.copy n)) else none
  | .copy n =>
    (s.space A f.va).map fun e =>
      { goto (.insert n) with data := Function.update s.data n (s.data e.ppn) }
  | .insert n =>
    some { goto (.unmap n) with
      space := setSpace s.space A f.va (some { f.pte with ppn := n }.uncow) }
  | .unmap _ => some { s with fault := Function.update s.fault A none }

/-! ## 4. `fork1` -/

/-- `WRITE_PROTECT`. -/
def writeProtect (s : Vm) : Vm :=
  { s with
    space := fun A va =>
      if A = .parent ∧ s.fork.InProt va then (s.space A va).map Pte.protect else s.space A va
    fork := { s.fork with protPgs := 0 } }

/-- The collected entries are inserted into the child. -/
def insertBatch (s : Vm) : Vm :=
  { s with
    space := fun A va =>
      if A = .child ∧ s.fork.Pending va then (s.fork.ptes[va - s.fork.insertStart]?).join
      else s.space A va
    fork := { s.fork with ptes := [] } }

/-- `ptes[insrt_pgs++] = pte`, for all but writable pages with `WRITE_PROTECT` to follow. -/
def collect (s : Vm) (o : Option Pte) : Vm :=
  { s with
    fork := { s.fork with
      ptes := s.fork.ptes ++ [o], va := s.fork.va + 1, pc := .protect } }

/-- A normal page that is writable. -/
def collectWritable (s : Vm) (e : Pte) : Vm :=
  { s with
    fork := { s.fork with
      ptes := s.fork.ptes ++ [some e.protect]
      va := s.fork.va + 1
      protStart := if s.fork.protPgs = 0 then s.fork.va else s.fork.protStart
      protPgs := s.fork.protPgs + 1
      pc := .top } }

/-- A page of the stack is copied to the page `n`. -/
def copyStack (s : Vm) (e : Pte) (n : Nat) : Vm :=
  collect
    { s with
      data := Function.update s.data n (s.data e.ppn)
      space := setSpace s.space .child s.fork.va (some { e with ppn := n }) }
    (some { e with ppn := n })

/-- A page that is there. -/
def scanPage (L : Layout) (s : Vm) (e : Pte) (n : Nat) : Option Vm :=
  if e.shared then some (collect s (some e))
  else if L.stack s.fork.va then
    if ppRefcnt L s n = 0 then some (copyStack s e n) else none
  else if s.fork.va = L.uaddr then some (collect s (s.space .child s.fork.va))
  else if e.w then some (collectWritable s e)
  else some (collect s (some e))

/-- One step of `fork1`; `n` is the page that is allocated. -/
def forkStep (L : Layout) (s : Vm) (n : Nat) : Option Vm :=
  let goto (s : Vm) (pc : ForkPc) : Vm := { s with fork := { s.fork with pc := pc } }
  match s.fork.pc with
  | .top =>
    if s.fork.va < L.utop then
      some (if batch ≤ s.fork.va - s.fork.insertStart then
        let t := insertBatch s
        { t with fork := { t.fork with insertStart := s.fork.va, pc := .scan } }
        else goto s .scan)
    else some (goto s .endProtect)
  | .scan =>
    if s.pd (s.fork.va / dirPages) = false then
      some { s with fork := { s.fork with
        va := (s.fork.va / dirPages + 1) * dirPages, pc := .protect } }
    else
      match s.space .parent s.fork.va with
      | none => some (collect s none)
      | some e => scanPage L s e n
  | .protect => some (goto (writeProtect s) .top)
  | .endProtect => some (goto (writeProtect s) .endInsert)
  | .endInsert => some (goto (insertBatch s) .ready)
  -- The child is given a quantum.
  | .ready => some (goto s .done)
  | .done => none

/-! ## 5. Both processes -/

/-- What can happen next. -/
inductive VmAct where
  | fork (n : Nat)
  | store (A : Side) (va off : Nat) (b : BitVec 8)
  | fault (A : Side) (va : Nat)
  | cow (A : Side) (n : Nat)
  | exit (A : Side)
  | otherStore (p off : Nat) (b : BitVec 8)
  | otherRefs (p k : Nat)

/-- A process that is not in its handler; the child runs when `fork1` is over. -/
def Vm.runs (s : Vm) (A : Side) : Bool :=
  s.fault A == none && (A == .parent || s.fork.pc == .done)

def storeByte (s : Vm) (p off : Nat) (b : BitVec 8) : Vm :=
  { s with data := Function.update s.data p (Function.update (s.data p) off b) }

def vmExec (L : Layout) (s : Vm) : VmAct → Option Vm
  | .fork n => if s.runs .parent then forkStep L s n else none
  | .store A va off b =>
    match s.space A va with
    | some e => if s.runs A ∧ e.w then some (storeByte s e.ppn off b) else none
    | none => none
  | .fault A va =>
    match s.space A va with
    | some e =>
      if s.runs A ∧ e.w = false ∧ e.cow then
        some { s with fault := Function.update s.fault A (some ⟨va, e, .test⟩) }
      else none
    | none => none
  | .cow A n => (s.fault A).bind fun f => cowStep L s A f n
  | .exit A =>
    if s.fork.pc = .done then
      some { s with
        space := fun B va => if B = A then none else s.space B va
        fault := Function.update s.fault A none }
    else none
  -- Another process stores to no page that one of the two has for itself.
  | .otherStore p off b => if isPrivate L s p then none else some (storeByte s p off b)
  | .otherRefs p k => some { s with others := Function.update s.others p k }

end Exokernel.Libos
