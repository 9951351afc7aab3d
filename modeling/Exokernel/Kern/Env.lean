import Exokernel.Kern.Ppage

/-!
# Environments — `xok/env.h`

An environment is a process: an identity, a list of capabilities and a page
directory. The page directory is an object of its own (`struct EnvPD`), because
`sys_env_clone` makes two environments share one.

**A capability list holds capabilities only.** The same C type also describes
access-list entries that are pointers to further lists, but nothing ever stores
such an entry in `env_clist`: boot seeds it with a plain capability, and every path
that writes a slot has just checked `cap_dominates`, which rejects pointers. The
type `ClistCap` carries that fact, so it need not be re-proved along a run.
-/
set_option autoImplicit false

namespace Exokernel

/-! ## 1. Capability lists -/

/-- `MAX_CAPNO`, and `env_clen` of every environment. -/
abbrev maxCapno : Nat := 19

instance : NeZero maxCapno := ⟨by decide⟩

/-- What a slot of `env_clist` can hold. -/
def ClistCap : Type := { c : Cap // c.valid = true → c.isptr = false }

namespace ClistCap

/-- A zeroed slot. -/
def null : ClistCap := ⟨Cap.null, fun h => by simp [Cap.null] at h⟩

end ClistCap

theorem not_isptr_of_capDominates {c d : Cap} (h : capDominates c d = true) :
    d.isptr = false := by
  unfold capDominates at h
  split at h
  · exact absurd h (by simp)
  rename_i hc
  simp only [Bool.or_eq_true, not_or, Bool.not_eq_true] at hc
  exact hc.1.1.2

/-! ## 2. Page directories -/

/-- `NENV` and `NLPG`. -/
abbrev nenv : Nat := 1024
abbrev nlpg : Nat := 1024

instance : NeZero nenv := ⟨by decide⟩

/-- A page of page-table entries. -/
structure PageTable where
  ppn : Nat
  pte : Fin nlpg → BitVec 32

/-- `struct EnvPD`, with the page directory it points to. A directory entry is the
    page table it names, or none if it is not present. The window that shows the
    directory to itself (`UVPT`) is not an entry here. -/
structure EnvPd where
  id : BitVec 32
  pdir : Nat
  rc : BitVec 16
  nptes : Fin nlpg → BitVec 16
  pt : Fin nlpg → Option PageTable

/-! ## 3. Environments -/

/-- `env_status`. -/
inductive EnvStatus where
  | free | ok | dead
deriving DecidableEq, Repr

/-- The part of `struct Uenv` that grants a capability. The environment writes it
    whenever it likes. -/
structure Uenv where
  aenvid : BitVec 32
  gkey : BitVec 32
  gcap : Cap

/-- `struct Env`. The page directory is named by its place in the table of
    directories; `env_u` is null or points to the user-writable part. -/
structure Env where
  id : BitVec 32
  status : EnvStatus
  u : Option Uenv
  pd : Option (Fin nenv)
  clist : Fin maxCapno → ClistCap

/-- A zeroed environment. -/
def Env.zero : Env := ⟨0, .free, none, none, fun _ => ClistCap.null⟩

/-- `envidx`. -/
def envidx (envid : BitVec 32) : Fin nenv := Fin.ofNat nenv (envid &&& 1023).toNat

/-- `env_getcap`. -/
def envGetcap (e : Env) (k : BitVec 32) : Except Errno ClistCap :=
  if h : k.toNat < maxCapno then
    if (e.clist ⟨k.toNat, h⟩).1.valid then .ok (e.clist ⟨k.toNat, h⟩) else .error .capInvalid
  else .error .capInvalid

/-- A capability that `env_getcap` hands out is valid and in the list. -/
theorem envGetcap_ok {e : Env} {k : BitVec 32} {c : ClistCap} (h : envGetcap e k = .ok c) :
    c.1.valid = true ∧ ∃ i, e.clist i = c := by
  unfold envGetcap at h
  split at h
  · rename_i hk
    split at h
    · rename_i hv
      obtain rfl : e.clist ⟨k.toNat, hk⟩ = c := by simpa using h
      exact ⟨hv, _, rfl⟩
    · simp at h
  · simp at h

end Exokernel
