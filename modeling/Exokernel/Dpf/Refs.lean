import Exokernel.Dpf.Trie
import Exokernel.Kern.Kernel

/-!
# Who holds which filter — `sysdpf.c`

The glue between the filters and the kernel. Each filter id has a bit vector of the
environments that refer to it, a count of them, the capability that guards it and the
packet ring its packets go to. A filter is taken out of the trie when the last
reference goes.

**The tables have 256 entries and the system calls let id 256 through**
(`fid > NFILTER`). Looking an id up in a table is therefore a step of its own here: with
an id outside the tables it is a trap.
-/
set_option autoImplicit false

namespace Exokernel.Dpf

/-! ## 1. The tables -/

/-- `NFILTER`. -/
abbrev nfilter : Nat := 256

/-- The tables of `sysdpf.c`, and the trie. A reference is a bit of `refs[fid]`. -/
structure Filters where
  refcnt : Fin nfilter → BitVec 32
  refs : Fin nfilter → Fin nenv → Bool
  caps : Fin nfilter → Cap
  ringvals : Fin nfilter → BitVec 32
  dpf : TrieState

/-- `Dpfcap`, as `dpf_init_refs` fills it: its name is `CAP_NM_DPF`. -/
def dpfcap : Cap := ⟨clAll, true, false, 1, fun i => if i = 0 then 192 else 0⟩

/-- `dpf_init_refs`. -/
def dpfInitRefs : Filters where
  refcnt := fun _ => 0
  refs := fun _ _ => false
  caps := fun _ => Cap.null
  ringvals := fun _ => 0
  dpf := TrieState.init

/-- How a system call can fail to return: the trie traps, or a table is accessed outside
    its entries. -/
inductive Stop where
  | trie (t : Trap)
  | outside (fid : Nat)
deriving DecidableEq, Repr

/-- A call of `dpf.c`. -/
def ofTrie {α : Type} : Except Trap α → Except Stop α
  | .ok x => .ok x
  | .error t => .error (.trie t)

/-- An access to entry `fid` of a table. -/
def entry (fid : Nat) : Except Stop (Fin nfilter) :=
  if h : fid < nfilter then .ok ⟨fid, h⟩ else .error (.outside fid)

/-! ## 2. References -/

/-- `dpf_add_ref`. The count goes up whether or not the bit was set. -/
def dpfAddRef (s : Filters) (fid : Nat) (envid : BitVec 32) : Except Errno Unit × Filters :=
  if h : fid < nfilter then
    let i : Fin nfilter := ⟨fid, h⟩
    (.ok (), { s with
      refs := Function.update s.refs i (Function.update (s.refs i) (envidx envid) true)
      refcnt := Function.update s.refcnt i (s.refcnt i + 1) })
  else (.error .inval, s)

/-- `dpf_del_ref`. -/
def dpfDelRef (s : Filters) (fid : Nat) (envid : BitVec 32) : Except Stop Filters := do
  let i ← entry fid
  if s.refs i (envidx envid) = false then pure s
  else
    let s : Filters := { s with
      refs := Function.update s.refs i (Function.update (s.refs i) (envidx envid) false)
      refcnt := Function.update s.refcnt i (s.refcnt i - 1) }
    if s.refcnt i = 0#32 then
      let (_, dpf) ← ofTrie (dpfDelete s.dpf fid)
      pure { s with
        dpf
        ringvals := if (s.ringvals i).toInt > 0 then Function.update s.ringvals i 0
          else s.ringvals }
    else pure s

/-- The loop of `dpf_del_env` over the given ids. -/
def delEnvLoop (envid : BitVec 32) : List (Fin nfilter) → Filters → Except Stop Filters
  | [], s => pure s
  | i :: is, s => do
    let s ← if s.refs i (envidx envid) then dpfDelRef s i envid else pure s
    delEnvLoop envid is s

/-- `dpf_del_env`. -/
def dpfDelEnv (s : Filters) (envid : BitVec 32) : Except Stop Filters :=
  delEnvLoop envid (List.finRange nfilter) s

/-! ## 3. System calls -/

/-- Who makes a call: the kernel's environments at that moment, the caller, and the
    environment the call is for (`ke` and `envid`, or none for a `sys_self_*` call). -/
structure Caller where
  kern : Kernel
  cur : Fin nenv
  tgt : Option (BitVec 32 × BitVec 32)

/-- The environment a call is for and its capability in slot `k`. -/
def Caller.getcap (u : Caller) (k : BitVec 32) : Except Errno (Env × Cap) :=
  match targetEnv u.kern u.cur u.tgt with
  | .error r => .error r
  | .ok i =>
    match envGetcap (u.kern.envs i) k with
    | .error r => .error r
    | .ok c => .ok (u.kern.envs i, c.1)

/-- `sys_dpf_insert`. `mem` says whether `malloc` finds room; `irs` is the filter in the
    user's memory. -/
def sysDpfInsert (s : Filters) (u : Caller) (kdpf k : BitVec 32) (mem : Bool) (irs : List Ir)
    (usering : BitVec 32) : Except Stop (Except Errno Nat × Filters) :=
  match u.getcap kdpf with
  | .error r => pure (.error r, s)
  | .ok (_, c) =>
    match aclAccess c [.ofCap dpfcap] aclW with
    | .error r => pure (.error r, s)
    | .ok () =>
      if !mem then pure (.error .noMem, s)
      else
        match u.getcap k with
        | .error r => pure (.error r, s)
        | .ok (e, c) =>
          if maxelem ≤ irs.length then pure (.error .inval, s)
          else do
            let (r, dpf) ← ofTrie (dpfInsert s.dpf irs)
            let s := { s with dpf }
            match r with
            | .error _ => pure (.error .inval, s)
            | .ok fid =>
              if nfilter ≤ fid || fid = 0 then pure (.error .inval, s)
              else
                let i ← entry fid
                let s := { s with caps := Function.update s.caps i { c with perm := aclAll } }
                let (_, s) := dpfAddRef s fid e.id
                pure (.ok fid, { s with ringvals := Function.update s.ringvals i usering })

/-- What `sys_dpf_ref` and `sys_dpf_delete` check about a caller, against the
    capability stored for the id. -/
def dpfAccess (s : Filters) (u : Caller) (k : BitVec 32) (fid : Nat) :
    Except Stop (Except Errno Env) :=
  match u.getcap k with
  | .error r => pure (.error r)
  | .ok (e, c) =>
    -- `acl_access` does not look at the entry if `c` lacks the permission itself
    if aclW &&& c.perm ≠ aclW then pure (.error .capInsuff)
    else do
      let i ← entry fid
      match aclAccess c [.ofCap (s.caps i)] aclW with
      | .error r => pure (.error r)
      | .ok () => pure (.ok e)

/-- `sys_dpf_delete`. -/
def sysDpfDelete (s : Filters) (u : Caller) (k fid : BitVec 32) :
    Except Stop (Except Errno Unit × Filters) :=
  if fid.toNat > nfilter then pure (.error .unspecified, s)
  else do
    match ← dpfAccess s u k fid.toNat with
    | .error r => pure (.error r, s)
    | .ok e => do
      let s ← dpfDelRef s fid.toNat e.id
      pure (.ok (), s)

/-- `sys_dpf_ref`. -/
def sysDpfRef (s : Filters) (u : Caller) (k fid : BitVec 32) :
    Except Stop (Except Errno Unit × Filters) :=
  if fid.toNat > nfilter then pure (.error .inval, s)
  else do
    match ← dpfAccess s u k fid.toNat with
    | .error r => pure (.error r, s)
    | .ok e => pure (dpfAddRef s fid.toNat e.id)

end Exokernel.Dpf
