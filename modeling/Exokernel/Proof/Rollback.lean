import Exokernel.Proof.Entries
import Exokernel.Proof.RawWrites

/-!
# Calls that fail — what they leave behind

A call that returns an error should have done nothing. The metadata is saved before it is
changed and written back afterwards, the entries that were made are removed, and the blocks that
were locked are unlocked.

**Bytes are restored, locks and frees are not.** Writing back the saved bytes undoes any
vectors, even if they overlap, unless a vector writes over itself: its elements are read again
one by one. But blocks that were locked by somebody else are unlocked with the rest, and blocks
that were freed before a failure stay freed.
-/
set_option autoImplicit false

namespace Exokernel.Xn

open Outcome List

/-! ## 1. Saved bytes -/

/-- The byte at address `x` is written by one of the vectors. -/
def Covers (base : Nat) (mv : List MVec) (x : Nat) : Prop :=
  ∃ v ∈ mv, base + v.offset.toNat ≤ x ∧ x < base + v.offset.toNat + v.data.length

/-- A vector with the bytes that are there. -/
def MVec.saved (m : Mem) (base : Nat) (v : MVec) : MVec :=
  { v with data := (List.range v.data.length).map fun i => m () (base + v.offset.toNat + i) }

section Saved

variable {m m' : Mem} {base x : Nat} {mv ck : List MVec}

theorem Covers.cons {v : MVec} (h : Covers base mv x) : Covers base (v :: mv) x := by
  obtain ⟨w, hw, hx⟩ := h
  exact ⟨w, mem_cons_of_mem _ hw, hx⟩

/-- The vector, as it is in memory `m`, does not write over its own elements. -/
def Settled (m : Mem) (base : Nat) (mv : List Elem) : Prop :=
  ∀ v ∈ mv, ∀ x ∈ v.held, ¬Covers base (looks mv m) x

end Saved

/-! ## 2. Transactions -/

section Transactions

variable {types : Types} {inKernel : Bool} {k k' : Kern} {mem mem' : Mem} {base : Nat} {ty : Word}
  {op : Op} {chk : Option USet → Option USet → Except Stop Bool} {res : Except XnErr Unit}

/-- A transaction on memory `m`, with a vector that was saved in `m₀`, changes nothing, or the
    vector is as it was and does not write over itself. -/
def VectorSound (tx : Except Stop (Except XnErr Unit × Mem × Kern)) (m₀ m : Mem) (base : Nat)
    (mv : List Elem) : Prop :=
  ∀ res m' k, tx = .ok (res, m', k) →
    m' = m ∨ Settled m₀ base mv ∧ ∀ v ∈ mv, ∀ x ∈ v.held, m () x = m₀ () x

end Transactions

/-! ## 3. Locks -/

section Locks

variable {r r' : Reg} {b : Db} {bs done : List Db}

/-- None of the blocks is locked. -/
def NoneLocked (r : Reg) (bs : List Db) : Prop := ∀ b ∈ bs, ∀ x, r.xr b = some x → x.locked = false

/-- The blocks that `xr_pre_io` gets past: those before the first that is refused. -/
def passed (r : Reg) (writep : Bool) (inBc : Db → Bool) (bs : List Db) : List Db :=
  bs.takeWhile fun b => (r.xr b).all fun x => (ioCheck r writep inBc b x).isOk

end Locks

/-! ## 4. Each call -/

/-- The bytes of memory, the freemap, the entries of the registry and their locks are the
    same. -/
structure Unchanged (s s' : Sys) : Prop where
  mem : s'.mem = s.mem
  used : s'.reg.used = s.reg.used
  entries : ∀ b, (s'.reg.xr b).isSome = (s.reg.xr b).isSome
  locked : ∀ b, (s'.reg.xr b).map Xr.locked = (s.reg.xr b).map Xr.locked

theorem Unchanged.refl (s : Sys) : Unchanged s s := ⟨rfl, rfl, fun _ => rfl, fun _ => rfl⟩

/-- A call that fails leaves what it found. -/
def FailsClean (s : Sys) : Result → Prop
  | .ok (.error _, s') => Unchanged s s'
  | _ => True

/-- Where the next search for free blocks starts makes no difference. -/
theorem FailsClean.start {s : Sys} {start : Nat} :
    ∀ {r : Result}, FailsClean { s with start } r → FailsClean s r
  | .ok (.error _, _), ⟨hm, hu, he, hl⟩ => ⟨hm, hu, he, hl⟩
  | .ok (.ok _, _), _ | .error _, _ => trivial

section Calls

variable {s s' : Sys} {env : Env} {da : Da} {op : Op} {t : Target} {ck : List MVec}

/-- If `sys_xn_alloc` gets to its second half, its vector does not write over itself. -/
def AllocSound (s : Sys) (env : Env) (da : Da) (op : Op) : Prop :=
  ∀ t db start ck, buildEnv s env da op = .ok (.ok t) → t.p.locked = false →
    chooseDb s env op.u t.nblocks = .ok (.ok db, start) → t.nblocks ≠ 0 →
    checkpt s env t.base t.p.td.size op.mv = .ok (some ck) →
    VectorSound (udfAlloc s.types env.inKernel s.kern s.mem t.base t.ty (op.at db))
      s.mem s.mem t.base op.mv

/-- The vector does not write over itself; and if the blocks cannot be deleted, then not even the
    first one alone. -/
def FreeCommitSound (s : Sys) (env : Env) (op : Op) (t : Target) : Prop :=
  let tx := udfDealloc s.types env.inKernel s.kern s.mem t.base t.ty op
  VectorSound tx s.mem s.mem t.base op.mv ∧
    ∀ mem k, tx = .ok (.ok (), mem, k) →
      ∀ e r, xrDelete s.reg t.td.base t.nblocks = some (.error e, r) →
        ∃ e r, xrDelete s.reg t.td.base 1 = some (.error e, r)

/-- What `sys_xn_free` has to meet if it gets to its second half. -/
def FreeSound (s : Sys) (env : Env) (da : Da) (op : Op) : Prop :=
  ∀ t ck, buildEnv s env da op = .ok (.ok t) →
    checkpt s env t.base t.p.td.size op.mv = .ok (some ck) → ¬op.u.db.toInt ≤ 0 → t.nblocks ≠ 0 →
    dbIsfree s.reg t.td.base t.nblocks = false → t.td.base + t.nblocks ≤ xnNblocks →
    FreeCommitSound s env op t

variable {db : Db} {n : Nat} {res : Except XnErr Unit}

/-- If `sys_xn_swap` gets to its second half, the vectors do not write over themselves, nor the
    first over the second. -/
def SwapSound (s : Sys) (env : Env) (v₁ : Da) (op₁ : Op) (v₂ : Da) (op₂ : Op) : Prop :=
  ∀ t₁ t₂ ck₁ ck₂, env.opReadable = true → swapTarget s v₁ = .ok t₁ → swapTarget s v₂ = .ok t₂ →
    checkpt s env t₁.2 t₁.1.td.size op₁.mv = .ok (some ck₁) →
    checkpt s env t₂.2 t₂.1.td.size op₂.mv = .ok (some ck₂) →
    let tx := udfMove s.types env.inKernel s.kern s.mem t₁.2 t₁.1.td.type op₁ op₂.u op₁.u
    VectorSound tx s.mem s.mem t₁.2 op₁.mv ∧ ∀ mem k, tx = .ok (.ok (), mem, k) →
      VectorSound (udfMove s.types env.inKernel k mem t₂.2 t₂.1.td.type op₂ op₁.u op₂.u)
        s.mem mem t₂.2 op₂.mv

/-- What `xr_pre_io` gets past of a range. -/
def Sys.passed (s : Sys) (writep : Bool) (db : Db) (n : Nat) : List Db :=
  Xn.passed s.reg writep (fun b => (s.page b).isSome) (blocks db n)

/-- A read that gets to its blocks starts, or what it has got past was not locked. -/
def ReadinSound (s : Sys) (env : Env) (db : Db) (n : Nat) (bcRead : Bool) : Prop :=
  db ≠ 0 → n ≠ 0 → env.opReadable = true →
    s.passed false db n = blocks db n ∧ bcRead = true ∨ NoneLocked s.reg (s.passed false db n)

/-- A write that gets to its blocks starts, or it is refused and what it has got past was not
    locked. -/
def WritebackSound (s : Sys) (env : Env) (db : Db) (n : Nat) (bcWrite : Bool) : Prop :=
  db ≠ 0 → n ≠ 0 → env.opReadable = true →
    s.passed true db n = blocks db n ∧ bcWrite = true ∨
      s.passed true db n ≠ blocks db n ∧ NoneLocked s.reg (s.passed true db n)

end Calls

/-! ## 5. Any call -/

/-- The calls, with what the user passes and what the rest of the kernel answers. -/
inductive Request where
  | alloc (env : Env) (da : Da) (op : Op)
  | free (env : Env) (da : Da) (op : Op)
  | swap (env : Env) (v₁ : Da) (op₁ : Op) (v₂ : Da) (op₂ : Op)
  | readin (env : Env) (db : Db) (n : Nat) (bcRead : Bool) (frames : Db → Nat)
  | writeback (env : Env) (db : Db) (n : Nat) (bcWrite : Bool)

def Request.exec (s : Sys) : Request → Result
  | .alloc env da op => sysXnAlloc s env da op
  | .free env da op => sysXnFree s env da op
  | .swap env v₁ op₁ v₂ op₂ => sysXnSwap s env v₁ op₁ v₂ op₂
  | .readin env db n bcRead frames => sysXnReadin s env db n bcRead frames
  | .writeback env db n bcWrite => sysXnWriteback s env db n bcWrite

/-- What each call has to meet, as far as it gets. -/
def Request.Sound (s : Sys) : Request → Prop
  | .alloc env da op => AllocSound s env da op
  | .free env da op => FreeSound s env da op
  | .swap env v₁ op₁ v₂ op₂ => SwapSound s env v₁ op₁ v₂ op₂
  | .readin env db n bcRead _ => ReadinSound s env db n bcRead
  | .writeback env db n bcWrite => WritebackSound s env db n bcWrite

end Exokernel.Xn
