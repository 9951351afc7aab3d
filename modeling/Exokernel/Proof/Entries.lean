import Exokernel.Xn.Registry

/-!
# What the calls do to entries

Of an entry in the registry three things matter to the rest of XN: what it describes, where the
pointer to its block is, and whether it is locked. Everything else that `rules.c` and
`registry.c` store into entries is bookkeeping of the write order.

**Each call makes entries, removes entries, or neither.** The lemmas say which, for the entries
of all blocks at once, and what becomes of the freemap.
-/
set_option autoImplicit false

namespace Exokernel.Xn

open Function List

/-! ## 1. The core of an entry -/

/-- What an entry says about its block. -/
structure Core where
  td : Td
  p : Da
  locked : Bool
deriving DecidableEq, Repr

def Xr.core (x : Xr) : Core := ⟨x.td, x.p, x.locked⟩

def Reg.core (r : Reg) (b : Db) : Option Core := (r.xr b).map Xr.core

section Core

variable {r r' : Reg} {b p : Db}

theorem Reg.core_mod (f : Xr → Xr) :
    (r.mod b f).core = update r.core b ((r.xr b).map fun x => (f x).core) := by
  funext c
  by_cases hc : c = b
  · subst hc
    simp [Reg.core, Reg.mod, Option.map_map, Function.comp_def]
  · simp [Reg.core, Reg.mod, update_of_ne hc]

theorem Reg.core_keeps {f : Xr → Xr} (hf : ∀ x, (f x).core = x.core) :
    (r.mod b f).core = r.core := by
  rw [Reg.core_mod]
  simp only [hf]
  exact update_eq_self b r.core

@[simp] theorem Reg.core_written : (r.mod b Xr.written).core = r.core :=
  Reg.core_keeps fun _ => rfl

@[simp] theorem Reg.core_addKid (c : Db) : (r.mod b (Xr.addKid c)).core = r.core :=
  Reg.core_keeps fun _ => rfl

@[simp] theorem Reg.core_setDeps (d : Deps) : (r.setDeps d).core = r.core := rfl

@[simp] theorem Reg.used_mod (f : Xr → Xr) : (r.mod b f).used = r.used := rfl

@[simp] theorem Reg.used_setDeps (d : Deps) : (r.setDeps d).used = r.used := rfl

end Core

/-! ## 2. Entries are made -/

section Made

variable {r r' : Reg} {b p : Db} {td : Td} {parent : Da} {sec : Sec} {mem : Db → Bool}

end Made

/-! ## 3. Entries are removed -/

section Removed

variable {r r' : Reg} {b : Db}

variable {res : Except XnErr Unit}

end Removed

end Exokernel.Xn
