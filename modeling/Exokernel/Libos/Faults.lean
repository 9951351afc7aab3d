import Exokernel.Lib.Run
import Exokernel.Proof.Walk

/-!
# Page-fault handlers for ranges — `os/fault.c`

A page fault goes to the first handler on a list whose range has the address. **That is the right
one if the ranges are disjoint**, which `register_pagefault_handler` is to see to. But it refuses a
range that ends where another begins; and in the last page the end is rounded up to 0, and the
range has no address at all.

What a handler does is left open. There is memory for the entry; the process stops otherwise.
-/
set_option autoImplicit false

namespace Exokernel.Libos

/-! ## 1. The list -/

/-- `PGROUNDUP`. -/
def pgRoundup (va : BitVec 32) : BitVec 32 := pgTrunc (va + pgMask)

/-- `handler_t`. -/
structure Handler (m : Type → Type) where
  vastart : BitVec 32
  vaend : BitVec 32
  handler : BitVec 32 → BitVec 32 → m (BitVec 32)

/-- The arguments of `register_pagefault_handler`. -/
structure Registration (m : Type → Type) where
  vastart : BitVec 32
  len : BitVec 32
  handler : BitVec 32 → BitVec 32 → m (BitVec 32)

section

variable {m : Type → Type}

/-- The tests of the loop. -/
def Handler.refuses (t : Handler m) (vastart vaend : BitVec 32) : Bool :=
  decide (vastart ≥ t.vastart ∧ vastart < t.vaend) || decide (vaend ≥ t.vastart ∧ vaend < t.vaend)
    || decide (vastart < t.vastart ∧ vaend ≥ t.vaend)

/-- `register_pagefault_handler`, and the list after it. -/
def registerPagefaultHandler (handlers : List (Handler m)) (c : Registration m) :
    BitVec 32 × List (Handler m) :=
  let vaend := pgRoundup (c.vastart + c.len)
  let vastart := pgTrunc c.vastart
  if handlers.any (·.refuses vastart vaend) then (-1, handlers)
  else (0, ⟨vastart, vaend, c.handler⟩ :: handlers)

/-- `registered_pagefault_handler`. -/
def registeredPagefaultHandler [Pure m] (handlers : List (Handler m)) (va errcode : BitVec 32) :
    m (BitVec 32) :=
  match handlers.find? fun t => va ≥ t.vastart ∧ va < t.vaend with
  | some t => t.handler va errcode
  | none => pure 0

/-! ## 2. Every sequence of calls -/

/-- The addresses of an entry. -/
def Handler.range (t : Handler m) : Set Nat := Set.Ico t.vastart.toNat t.vaend.toNat

/-- The addresses of the pages that a call is about. -/
def Registration.range (c : Registration m) : Set Nat :=
  Set.Ico (c.vastart.toNat / 4096 * 4096) ((c.vastart.toNat + c.len.toNat + 4095) / 4096 * 4096)

/-- **The range does not reach into the last page, and no other range begins where it ends.** -/
structure Registration.Ok (handlers : List (Handler m)) (c : Registration m) : Prop where
  pos : 0 < c.len.toNat
  low : c.vastart.toNat + c.len.toNat ≤ 2 ^ 32 - 4096
  gap : ∀ t ∈ handlers, t.vastart.toNat ≠ (c.vastart.toNat + c.len.toNat + 4095) / 4096 * 4096

/-- What a call should do: it puts a range that is disjoint from the others on the list, and
    refuses any other. -/
def Registration.Exact (handlers : List (Handler m)) (c : Registration m) : Prop :=
  ((∀ t ∈ handlers, Disjoint c.range t.range) ∧ ∃ t : Handler m, t.range = c.range ∧
    t.handler = c.handler ∧ registerPagefaultHandler handlers c = (0, t :: handlers)) ∨
  (∃ t ∈ handlers, ¬Disjoint c.range t.range) ∧
    registerPagefaultHandler handlers c = (-1, handlers)

/-- The ranges have addresses, and no two of them share one. -/
structure Apart (handlers : List (Handler m)) : Prop where
  full : ∀ t ∈ handlers, t.vastart < t.vaend
  disjoint : handlers.Pairwise fun t u => Disjoint t.range u.range

variable {handlers : List (Handler m)} {c : Registration m}

theorem Registration.Ok.toNat_end (h : c.Ok handlers) :
    (pgRoundup (c.vastart + c.len)).toNat =
      (c.vastart.toNat + c.len.toNat + 4095) / 4096 * 4096 := by
  have hlow := h.low
  rw [pgRoundup, toNat_pgTrunc, BitVec.toNat_add, BitVec.toNat_add]
  change ((c.vastart.toNat + c.len.toNat) % 2 ^ 32 + 4095) % 2 ^ 32 / 4096 * 4096 = _
  rw [Nat.mod_eq_of_lt (by omega), Nat.mod_eq_of_lt (by omega)]

/-- A range is refused by those it is not disjoint from. -/
theorem Apart.any_refuses (h : Apart handlers) (hok : c.Ok handlers) :
    handlers.any (·.refuses (pgTrunc c.vastart) (pgRoundup (c.vastart + c.len))) = true ↔
      ∃ t ∈ handlers, ¬Disjoint c.range t.range := by
  rw [List.any_eq_true]
  refine exists_congr fun t => and_congr_right fun ht => ?_
  have hlt := h.full t ht
  have hgap := hok.gap t ht
  have hpos := hok.pos
  rw [BitVec.lt_def] at hlt
  simp only [Handler.refuses, Bool.or_eq_true, decide_eq_true_eq, ge_iff_le, BitVec.le_def,
    BitVec.lt_def, toNat_pgTrunc, hok.toNat_end, Registration.range, Handler.range,
    Set.Ico_disjoint_Ico]
  omega

theorem Apart.register (h : Apart handlers) (hok : c.Ok handlers) :
    c.Exact handlers ∧ Apart (registerPagefaultHandler handlers c).2 := by
  have hiff := h.any_refuses hok
  by_cases hover : ∃ t ∈ handlers, ¬Disjoint c.range t.range
  · have heq : registerPagefaultHandler handlers c = (-1, handlers) := if_pos (hiff.mpr hover)
    exact ⟨.inr ⟨hover, heq⟩, heq ▸ h⟩
  have hdisj : ∀ t ∈ handlers, Disjoint c.range t.range := by simpa using hover
  let t : Handler m := ⟨pgTrunc c.vastart, pgRoundup (c.vastart + c.len), c.handler⟩
  have heq : registerPagefaultHandler handlers c = (0, t :: handlers) :=
    if_neg (hiff.not.mpr hover)
  have hrange : t.range = c.range := by
    simp only [t, Handler.range, toNat_pgTrunc, hok.toNat_end, Registration.range]
  have hlt : t.vastart < t.vaend := by
    have hpos := hok.pos
    rw [BitVec.lt_def, toNat_pgTrunc, hok.toNat_end]
    omega
  refine ⟨.inl ⟨hdisj, t, hrange, rfl, heq⟩, ?_⟩
  rw [heq]
  refine ⟨List.forall_mem_cons.mpr ⟨hlt, h.full⟩, List.pairwise_cons.mpr ⟨?_, h.disjoint⟩⟩
  exact hrange ▸ hdisj

theorem Apart.unique (h : Apart handlers) {t u : Handler m} {a : Nat} (ht : t ∈ handlers)
    (hu : u ∈ handlers) (hat : a ∈ t.range) (hau : a ∈ u.range) : t = u := by
  have hsymm : Std.Symm fun t u : Handler m => Disjoint t.range u.range := ⟨fun _ _ hd => hd.symm⟩
  by_contra hne
  exact Set.disjoint_left.mp (h.disjoint.forall ht hu hne) hat hau

/-- **Registration is exact and a fault goes to the one handler for its address**, in every run
    whose calls do not end in the last page or where another range begins. -/
theorem handlers_exact [Pure m]
    (hrun : Run.Reaches (fun hs c hs' => (registerPagefaultHandler hs c).2 = hs')
      Registration.Ok [] handlers) :
    (∀ c : Registration m, c.Ok handlers → c.Exact handlers) ∧
    ∀ va errcode,
      (∃ t ∈ handlers, va.toNat ∈ t.range ∧ (∀ u ∈ handlers, va.toNat ∈ u.range → u = t) ∧
        registeredPagefaultHandler handlers va errcode = t.handler va errcode) ∨
      (∀ t ∈ handlers, va.toNat ∉ t.range) ∧
        registeredPagefaultHandler handlers va errcode = pure 0 := by
  have h : Apart handlers :=
    hrun.invariant ⟨by simp, .nil⟩ fun _ _ _ h hok heq => heq ▸ (h.register hok).2
  refine ⟨fun c hok => (h.register hok).1, fun va errcode => ?_⟩
  unfold registeredPagefaultHandler
  cases hfind : handlers.find? fun t => va ≥ t.vastart ∧ va < t.vaend with
  | some t =>
    have ht := List.mem_of_find?_eq_some hfind
    have hin : va ≥ t.vastart ∧ va < t.vaend := of_decide_eq_true (List.find?_some hfind :)
    exact .inl ⟨t, ht, hin, fun u hu hau => h.unique hu ht hau hin, rfl⟩
  | none =>
    have hnone := List.find?_eq_none.mp hfind
    exact .inr ⟨fun t ht hin => hnone t ht (decide_eq_true (p := _ ∧ _) hin), rfl⟩

end

/-- A handler that says which one it is. -/
def answers (n : BitVec 32) : BitVec 32 → BitVec 32 → Id (BitVec 32) := fun _ _ => n

/-- One page at `0x2000`. -/
def pageTwo : List (Handler Id) := (registerPagefaultHandler [] ⟨0x2000, 0x1000, answers 1⟩).2

/-- And two pages from `0x8000` on: each address goes to its own handler. -/
def pagesTwoEight : List (Handler Id) :=
  (registerPagefaultHandler pageTwo ⟨0x8000, 0x2000, answers 2⟩).2

theorem handlers_exact_pagesTwoEight :
    registeredPagefaultHandler pagesTwoEight 0x2abc 0 = (1 : BitVec 32) ∧
      registeredPagefaultHandler pagesTwoEight 0x9abc 0 = (2 : BitVec 32) := by
  have hone : Run.Reaches (fun hs c hs' => (registerPagefaultHandler hs c).2 = hs')
      Registration.Ok [] pageTwo :=
    .call .refl ⟨by decide, by decide, by simp⟩ rfl
  have hgap : ∀ t ∈ pageTwo, t.vastart.toNat ≠ 0xa000 := by
    intro t ht
    rw [List.mem_singleton.mp ht]
    decide
  have hrun : Run.Reaches (fun hs c hs' => (registerPagefaultHandler hs c).2 = hs')
      Registration.Ok [] pagesTwoEight :=
    .call (i := ⟨0x8000, 0x2000, answers 2⟩) hone ⟨by decide, by decide, hgap⟩ rfl
  -- the range that an address lies in is the one whose handler is called
  have hcall : ∀ t ∈ pagesTwoEight, ∀ va, va.toNat ∈ t.range →
      registeredPagefaultHandler pagesTwoEight va 0 = t.handler va 0 := by
    intro t ht va hva
    rcases (handlers_exact hrun).2 va 0 with ⟨u, -, -, hall, heq⟩ | ⟨hnone, -⟩
    · rw [heq, hall t ht hva]
    · exact absurd hva (hnone t ht)
  exact ⟨hcall ⟨0x2000, 0x3000, answers 1⟩ (.tail _ (.head _)) _ ⟨by decide, by decide⟩,
    hcall ⟨0x8000, 0xa000, answers 2⟩ (.head _) _ ⟨by decide, by decide⟩⟩

/-- The page before it is refused, and the handler of the last page is never called. -/
theorem register_refuses_neighbour :
    (registerPagefaultHandler pageTwo ⟨0x1000, 0x1000, answers 2⟩).1 = -1 ∧
    (∀ t ∈ pageTwo, Disjoint (Registration.range ⟨0x1000, 0x1000, answers 2⟩) t.range) ∧
    (registerPagefaultHandler [] ⟨0xfffff000, 16, answers 2⟩).1 = 0 ∧
    registeredPagefaultHandler (registerPagefaultHandler [] ⟨0xfffff000, 16, answers 2⟩).2
      0xfffff000 0 = (0 : BitVec 32) := by
  refine ⟨by decide, fun t ht => ?_, by decide, rfl⟩
  obtain rfl : t = ⟨0x2000, 0x3000, answers 1⟩ := List.mem_singleton.mp ht
  simp [Registration.range, Handler.range]

end Exokernel.Libos
