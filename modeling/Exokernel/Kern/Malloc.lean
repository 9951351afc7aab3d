import Mathlib
import Exokernel.Lib.Chain

/-!
# The kernel's `malloc` — `kern/malloc.c`

Blocks up to a page come in nine sizes, 16 bytes to 4096. Free blocks of one size are
on a list that is threaded through the blocks themselves; `pp_bs` of a page says which
size it was cut into and `pp_pcfc` how many of its blocks are free. Larger requests
get a run of whole pages, and **`pp_bs` of the first page of a run holds the length of
the run above the mark `MAXBS`**, in a field of sixteen bits.

Where the pages come from does not matter here: `ppage_alloc` and `ppage_alloc_n`
answer with a page number or fail, as an argument says. `held` remembers which pages
were got and not given back, and from which of the two. An address is a place in the
kernel's window onto physical memory, counted from its start; page `p` begins at
`p * 4096`. A call that would index `bs` out of bounds, and a list that goes round in
circles, have no result.
-/
set_option autoImplicit false

namespace Exokernel

/-! ## 1. Sizes -/

/-- `MAXBS`, the number of block sizes and the mark of a run of pages. -/
abbrev maxBs : Nat := 9

/-- `1 << (bsn + LOG2MINALLOC)`. -/
def blockSize (bsn : Nat) : Nat := 2 ^ (bsn + 4)

/-- `bs_bppg`: the blocks of a page. -/
def bppg (bsn : Nat) : Nat := 2 ^ (8 - bsn)

/-- `fls`: one more than the place of the highest bit. -/
def fls (v : BitVec 32) : Nat := if v = 0 then 0 else Nat.log 2 v.toNat + 1

/-- `size_mask[bsn]`. -/
def sizeMask (bsn : Nat) : BitVec 32 := BitVec.ofNat 32 (blockSize bsn - 1)

/-- `bsnum`. -/
def bsnum (size : BitVec 32) : Nat :=
  let bsn := fls size - 5
  if maxBs ≤ bsn then 29
  else
    let bsn := if size &&& sizeMask bsn ≠ 0 then bsn + 1 else bsn
    if maxBs ≤ bsn then 29 else bsn

/-! ## 2. The state -/

/-- Which function a page was got from. -/
inductive PageSrc where
  | alloc | allocN
deriving DecidableEq

/-- The allocator. `mem` is what the word at an address says, read as a pointer. -/
structure Malloc where
  list : Fin maxBs → Option Nat
  free : Fin maxBs → BitVec 32
  mem : Nat → Option Nat
  bs : Nat → BitVec 16
  pcfc : Nat → BitVec 16
  held : Nat → Option PageSrc

/-- `malloc_init`. -/
def Malloc.init (mem : Nat → Option Nat) (bs pcfc : Nat → BitVec 16) : Malloc :=
  ⟨fun _ => none, fun _ => 0, mem, bs, pcfc, fun _ => none⟩

/-- `kva2pp` and `PGNO`. -/
def pageOf (a : Nat) : Nat := a / 4096

/-- Pages `pg` to `pg + n - 1` are got. -/
def Malloc.take (m : Malloc) (src : PageSrc) (pg n : Nat) : Malloc :=
  { m with held := fun p => if pg ≤ p ∧ p < pg + n then some src else m.held p }

@[simp] theorem Malloc.take_list (m : Malloc) (src : PageSrc) (pg n : Nat) :
    (m.take src pg n).list = m.list := rfl
@[simp] theorem Malloc.take_free (m : Malloc) (src : PageSrc) (pg n : Nat) :
    (m.take src pg n).free = m.free := rfl
@[simp] theorem Malloc.take_mem (m : Malloc) (src : PageSrc) (pg n : Nat) :
    (m.take src pg n).mem = m.mem := rfl

/-- `Ppage_pp_bs_set(pp, 0); ppage_free (pp)`. -/
def Malloc.giveBack (m : Malloc) (pg : Nat) : Malloc :=
  { m with bs := Function.update m.bs pg 0, held := Function.update m.held pg none }

/-! ## 3. `malloc` -/

/-- The pages that `malloc` asks for when it asks: `ppage_alloc_n` takes at least two. -/
def pagesFor (size : BitVec 32) : Nat :=
  if 4096 < size then
    let bsn := ((size + 4095) / 4096).toNat
    if bsn < 2 then 2 else bsn
  else 1

/-- `malloc` of more than a page. -/
def mallocRun (m : Malloc) (size : BitVec 32) (page : Option Nat) : Option Nat × Malloc :=
  match page with
  | none => (none, m)
  | some pg =>
    let bsn := ((size + 4095) / 4096).toNat
    let m := m.take .allocN pg (pagesFor size)
    (some (pg * 4096), { m with
        bs := fun p =>
          if p = pg then BitVec.ofNat 16 (bsn * 2 ^ 8 + maxBs)
          else if pg < p ∧ p < pg + bsn then BitVec.ofNat 16 maxBs
          else m.bs p })

/-- Thread the blocks of size `sz` from `p` on, `n` of them before the last. -/
def linkBlocks (sz : Nat) : Nat → Nat → (Nat → Option Nat) → Nat → Option Nat
  | 0, p, mem => Function.update mem p none
  | n + 1, p, mem => linkBlocks sz n (p + sz) (Function.update mem p (some (p + sz)))

/-- `malloc` of a block when the list is empty: cut up a page. -/
def mallocPage (m : Malloc) (b : Fin maxBs) (page : Option Nat) : Option Nat × Malloc :=
  match page with
  | none => (none, m)
  | some pg =>
    let m := m.take .alloc pg 1
    let m := { m with
      bs := Function.update m.bs pg (BitVec.ofNat 16 b.val)
      pcfc := Function.update m.pcfc pg (BitVec.ofNat 16 (bppg b.val - 1)) }
    let r := pg * 4096
    let sz := blockSize b.val
    if sz < 4096 then
      (some r, { m with
          mem := linkBlocks sz (bppg b.val - 2) (r + sz) m.mem
          free := Function.update m.free b (m.free b + BitVec.ofNat 32 (bppg b.val - 1))
          list := Function.update m.list b (some (r + sz)) })
    else (some r, m)

/-- `malloc`. `page` is what the page allocator answers if it is asked. -/
def malloc (m : Malloc) (size : BitVec 32) (page : Option Nat) : Option (Option Nat × Malloc) :=
  if size = 0 then some (none, m)
  else if 4096 < size then some (mallocRun m size page)
  else if h : bsnum size < maxBs then
    let b : Fin maxBs := ⟨bsnum size, h⟩
    match m.list b with
    | some r =>
      some (some r, { m with
          list := Function.update m.list b (m.mem r)
          free := Function.update m.free b (m.free b - 1)
          pcfc := Function.update m.pcfc (pageOf r) (m.pcfc (pageOf r) - 1) })
    | none => some (mallocPage m b page)
  else none

/-! ## 4. `free` -/

/-- Give back `n` pages from `pg` on. -/
def freeRun (m : Malloc) (pg : Nat) : Nat → Malloc
  | 0 => m
  | n + 1 => freeRun (m.giveBack pg) (pg + 1) n

/-- The recycling at the end of `free`: all blocks of the page leave the list, and the
    page goes. -/
def recycle (m : Malloc) (b : Fin maxBs) (pg : Nat) : Option Malloc :=
  (sweep (fun a => decide (pageOf a = pg)) (m.free b).toNat none (m.list b)
      ⟨m.list b, m.mem⟩).map fun s =>
    { m with
      list := Function.update m.list b s.head
      mem := s.next
      free := Function.update m.free b (m.free b - BitVec.ofNat 32 (bppg b.val)) }.giveBack pg

/-- `free` of a pointer that is not null. -/
def free (m : Malloc) (p : Nat) : Option Malloc :=
  let pg := pageOf p
  if m.bs pg &&& 0xff = BitVec.ofNat 16 maxBs then some (freeRun m pg (m.bs pg >>> 8).toNat)
  else if (m.held pg).isNone then some m
  else if h : (m.bs pg).toNat < maxBs then
    let b : Fin maxBs := ⟨(m.bs pg).toNat, h⟩
    let m := { m with
      pcfc := Function.update m.pcfc pg (m.pcfc pg + 1)
      mem := Function.update m.mem p (m.list b)
      list := Function.update m.list b (some p)
      free := Function.update m.free b (m.free b + 1) }
    if (m.pcfc pg).toNat = bppg b.val ∧ 3 * bppg b.val ≤ (m.free b).toNat then recycle m b pg
    else some m
  else none

/-! ## 5. What callers do -/

/-- The allocator and the pointers its callers have not freed, with the sizes they
    asked for. -/
structure Alloc where
  m : Malloc
  out : List (Nat × Nat)

/-- The calls, and a caller writing into a block of its own. -/
inductive AllocOp where
  | malloc (size : BitVec 32) (page : Option Nat)
  | free (p : Nat)
  | store (a : Nat) (v : Option Nat)

namespace AllocOp

def exec (s : Alloc) : AllocOp → Option Alloc
  | malloc size page =>
    (Exokernel.malloc s.m size page).map fun (r, m) =>
      ⟨m, match r with
          | none => s.out
          | some p => (p, size.toNat) :: s.out⟩
  | free p => (Exokernel.free s.m p).map fun m => ⟨m, s.out.filter fun x => x.1 ≠ p⟩
  | store a v => some { s with m := { s.m with mem := Function.update s.m.mem a v } }

/-- What the page allocator and the callers promise: pages are fresh and exist, only
    outstanding pointers are freed, and nobody writes outside a block of its own. -/
def Valid (s : Alloc) : AllocOp → Prop
  | malloc size page =>
    ∀ pg, page = some pg → pg + pagesFor size ≤ 2 ^ 20 ∧
      ∀ p, pg ≤ p → p < pg + pagesFor size → s.m.held p = none
  | free p => ∃ x ∈ s.out, x.1 = p
  | store a _ => ∃ x ∈ s.out, x.1 ≤ a ∧ a < x.1 + x.2

end AllocOp

end Exokernel
