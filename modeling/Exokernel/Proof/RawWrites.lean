import Exokernel.Proof.Functions
import Exokernel.Xn.Calls
import Exokernel.Xn.Check

/-!
# Raw writes — what `owns` sees of them

Bytes that no function looks at may be written without asking (`sys_xn_writeb`). That no block
number can be forged that way rests on three tests: the one for a raw write, the one for
a load of `owns`, and the comparison of both sets of bytes when the type is checked.

**The three tests do not read a range in the same way.** The check counts `[lb, ub)`; the two
tests that are made later also allow the byte at `ub`. And `owns` may look at what `read_f` says
now, which need not be what it said when the type was checked, and at whatever it adds itself.
Nor is a register number tested: `owns` of a type that is accepted may read any byte of memory.
-/
set_option autoImplicit false

namespace Exokernel.Xn

open Outcome List Nat

/-! ## 1. What the check has found -/

/-- The byte at `x` is in one of the ranges `[lb, ub)`. -/
def Holds (e : Ext) (x : Nat) : Prop := ∃ v ∈ e, v.lb.toNat ≤ x ∧ x < v.ub.toNat

section Check

variable {n : Nat} {s s' : Bits} {e : Ext}

end Check

/-! ## 2. What is written -/

/-- A load within the ranges may touch the byte at `x`. -/
def Loads (e : Ext) (x : Nat) : Prop :=
  ∃ off w j, uInSet e off (BitVec.ofNat 32 (Width.bytes w)) = true ∧ j < w.bytes ∧
    (off.toNat + j) % 2 ^ 32 = x

section Write

variable {types : Types} {m m' : Mem} {base : Nat}

variable {start toff : Nat} {t : UdfType} {w : Word}

end Write

/-! ## 3. Raw writes keep the owned sets -/

/-- The static data at the start. -/
def kern₀ : Kern := ⟨fun _ => 0, none⟩

/-- The type after the check, if it is accepted. -/
def accepted (t : UdfType) : Option UdfType :=
  match udfTypeCheck (fun _ => none) kern₀ t with
  | .ok (some t, _) => some t
  | _ => none

/-- A load within a range touches no byte behind it, unless it wraps around. -/
theorem Loads.le {e : Ext} {x : Nat} (h : Loads e x) (hx : x < 2 ^ 32 - 3) :
    ∃ v ∈ e, x ≤ v.ub.toNat := by
  obtain ⟨off, w, j, hin, hj, rfl⟩ := h
  simp only [uInSet, any_eq_true, Bool.and_eq_true, decide_eq_true_eq] at hin
  obtain ⟨v, hv, -, hub⟩ := hin
  refine ⟨v, hv, ?_⟩
  cases w with
  | byte => simp only [Width.bytes] at hj hub; bv_omega
  | half => simp only [Width.bytes] at hj hub; bv_omega
  | word => simp only [Width.bytes] at hj hub; bv_omega

end Exokernel.Xn
