import Exokernel.Kern.Boot
import Exokernel.Proof.Walk

/-!
# The kernel's part of the address space — which calls can reach it

`UTOP` divides an address space, and the calls that edit page tables should leave what lies
above alone. Each has its own guard or none: `sys_insert_pte_range` and `sys_mod_pte_range`
look at the *last* page of the range, in 32-bit arithmetic; `sys_remove_vas` looks at every
address; `sys_bc_buffer_map` does not look. And `sys_insert_pte_range` counts its rounds through a
pointer that it takes from the user as it is.

**The last page says nothing about the others when the range wraps.** The theorem at the end
is exact: a call with given arguments leaves the kernel's entries alone in every state if and
only if `PteCall.StaysBelow` holds of the arguments. One direction is a frame argument. The
other one builds, for every other tuple, a state in which an entry above `UTOP` changes.
-/
set_option autoImplicit false

namespace Exokernel

open Function Option Nat

/-! ## 1. Relations that ignore everything but page tables -/

/-- A preorder on states that edits at addresses in `V` respect. Nothing but the page tables
    counts. -/
structure TableFrame (R : Kernel → Kernel → Prop) (V : BitVec 32 → Prop) : Prop where
  trunc : ∀ va, V va → V (pgTrunc va)
  trans : ∀ {k k' k''}, R k k' → R k' k'' → R k k''
  ofEq : ∀ {k k' : Kernel}, k'.pds = k.pds → k'.kernTables = k.kernTables → R k k'
  modNptes : ∀ (k : Kernel) (d : Fin nenv) (i : Fin nlpg) (f : BitVec 16 → BitVec 16),
    R k (k.modNptes d i f)
  setTable : ∀ (k : Kernel) (d : Fin nenv) {va : BitVec 32} (t : PageTable), V va →
    R k (k.setTable d (pdeno va) (some t))
  setPte : ∀ (k : Kernel) (d : Fin nenv) {va : BitVec 32} (pte : BitVec 32), V va →
    R k (k.setPte d va pte)

namespace TableFrame

variable {R : Kernel → Kernel → Prop} {V : BitVec 32 → Prop}

variable (h : TableFrame R V)
include h

theorem ppageRemove (k : Kernel) (d : Fin nenv) (envid : BitVec 32)
    {va : BitVec 32} (hva : V va) : R k (ppageRemove k d envid va) := by
  have hdrop : ∀ p v w, R k ((k.modPage p (·.dropVpage v w)).modNptes d (pdeno va) (· - 1)) :=
    fun p v w =>
      h.trans (show R k (k.modPage p (·.dropVpage v w)) from h.ofEq rfl rfl)
        (h.modNptes _ d (pdeno va) (· - 1))
  unfold Exokernel.ppageRemove
  split
  · exact h.ofEq rfl rfl
  split
  · dsimp only
    split
    · exact h.ofEq rfl rfl
    refine h.trans ?_ (h.setPte _ d 0 hva)
    split
    · exact h.trans (hdrop _ _ _) (h.ofEq rfl rfl)
    · exact hdrop _ _ _
  · exact h.setPte k d 0 hva

/-- Every elementary step of the calls is within the frame. -/
theorem keeps (k₀ : Kernel) (d : Fin nenv) (envid : BitVec 32) :
    Keeps (fun _ => R k₀) d envid V where
  trunc := h.trunc
  halt _ _ hk := h.trans hk (h.ofEq rfl rfl)
  table _ k _ _ m hk hva _ _ _ :=
    h.trans (h.trans hk (show R k (k.setMem m) from h.ofEq rfl rfl)) (h.setTable _ d _ hva)
  unmap _ k _ _ hk hva _ _ _ := h.trans hk (h.ppageRemove k d envid hva)
  idle _ k _ _ pte hk hva _ _ _ := h.trans hk (h.setPte k d pte hva)
  bogus _ k _ _ hk hva _ _ _ := h.trans hk (h.setPte k d 0 hva)

theorem keepsMap (k₀ : Kernel) (d : Fin nenv) (envid : BitVec 32) (c : Cap)
    (n : Nat) :
    KeepsMap (fun _ => R k₀) (R k₀) (fun _ _ => True) (fun _ _ _ => True) d envid V c n where
  toKeeps := h.keeps k₀ d envid
  malloc _ _ _ hk _ := ⟨h.trans hk (h.ofEq rfl rfl), trivial⟩
  reclaim _ hk _ _ _ _ _ := ⟨h.trans hk (h.ofEq rfl rfl), trivial⟩
  alloc _ _ _ _ hk _ _ := ⟨h.trans hk (h.ofEq rfl rfl), trivial⟩
  guard _ _ _ _ hk _ _ := ⟨h.trans hk (h.ofEq rfl rfl), trivial⟩
  unguard _ _ _ hk _ := h.trans hk (h.ofEq rfl rfl)
  check _ _ _ _ _ _ _ _ _ := trivial
  add _ _ _ _ hk _ _ _ := h.trans hk (h.ofEq rfl rfl)
  undo _ _ _ _ hk := ⟨h.trans hk (h.ofEq rfl rfl), trivial⟩
  finish k va p perm _ hk hva _ _ _ _ _ :=
    h.trans (h.trans hk (h.setPte k d (pp2pa p ||| perm) hva)) (h.modNptes _ d (pdeno va) _)
  giveBack _ _ _ hk _ := h.trans hk (h.ofEq rfl rfl)

theorem keepsMod (k₀ : Kernel) (d : Fin nenv) (envid : BitVec 32) (c : Cap)
    (perm : BitVec 3) (remove : BitVec 32) :
    KeepsMod (fun _ => R k₀) d envid V c perm remove where
  toKeeps := h.keeps k₀ d envid
  soft k _ _ _ hk hva _ _ _ _ _ := h.trans hk (h.setPte k d _ hva)
  hard k _ _ _ hk hva _ _ _ _ _ := h.trans (h.trans hk (h.setPte k d _ hva)) (h.ofEq rfl rfl)

theorem callFrame : CallFrame R V where
  trans := h.trans
  same _ := h.ofEq rfl rfl
  halt _ := h.ofEq rfl rfl
  reuse _ _ := h.ofEq rfl rfl
  free _ _ := h.ofEq rfl rfl
  map := h.keepsMap
  mod := h.keepsMod

end TableFrame

/-! ## 2. The kernel's part, and tables that stay -/

variable {c : Cap} {d : Fin nenv} {k : Kernel} {va : BitVec 32}

theorem pdeno_lt (h : va < utop) : pdeno va < pdeno utop := by
  have hlt : va.toNat < 2 ^ 22 * 821 := BitVec.lt_def.mp h
  exact Fin.lt_def.mpr (Nat.div_lt_of_lt_mul hlt)

theorem pdeno_ge (h : utop ≤ va) : pdeno utop ≤ pdeno va :=
  Fin.le_def.mpr (Nat.div_le_div_right (BitVec.le_def.mp h))

theorem pgTrunc_lt (hva : va < utop) : pgTrunc va < utop := by
  rw [BitVec.lt_def] at hva ⊢
  rw [toNat_pgTrunc]
  exact (div_mul_le_self _ _).trans_lt hva

/-- The table behind an entry, for one directory. -/
def EnvPd.tableAt (pd : EnvPd) (kern : Option PageTable) (i : Fin nlpg) : Option PageTable :=
  match pd.pt i with
  | some t => some t
  | none => if Kernel.kernPde i then kern else none

theorem Kernel.modPd_table (k : Kernel) (d e : Fin nenv) (f : EnvPd → EnvPd) (i : Fin nlpg) :
    (k.modPd d f).table e i =
      if e = d then (k.pds d).bind fun pd => (f pd).tableAt (k.kernTables i) i
      else k.table e i := by
  split
  · rename_i hed
    subst hed
    simp only [Kernel.table, Kernel.modPd, Kernel.setPd, update_self]
    cases k.pds e with
    | none => rfl
    | some pd => rfl
  · rename_i hed
    simp only [Kernel.table, Kernel.modPd, Kernel.setPd, update_of_ne hed]

/-- The tables from `UTOP` on are what they were, in every page directory. -/
def HighSame (k k' : Kernel) : Prop :=
  ∀ (d : Fin nenv) (i : Fin nlpg), pdeno utop ≤ i → k'.table d i = k.table d i

namespace HighSame

variable {k k' : Kernel} {d : Fin nenv} {va : BitVec 32}

theorem pte (h : HighSame k k') (hva : utop ≤ va) : k'.pte d va = k.pte d va := by
  rw [Kernel.pte, Kernel.pte, h d _ (pdeno_ge hva)]

/-- A page directory is rewritten, its entries from `UTOP` on apart. -/
theorem modPd (k : Kernel) (d : Fin nenv) {f : EnvPd → EnvPd}
    (hf : ∀ pd i, pdeno utop ≤ i → (f pd).pt i = pd.pt i) : HighSame k (k.modPd d f) := by
  intro e i hi
  rw [Kernel.modPd_table]
  split
  · rename_i hed
    subst hed
    cases hpd : k.pds e with
    | none => simp [Kernel.table, hpd]
    | some pd =>
      have hpt := hf pd i hi
      cases ht : pd.pt i with
      | none => simp [Kernel.table, EnvPd.tableAt, hpd, hpt, ht]
      | some t => simp [Kernel.table, EnvPd.tableAt, hpd, hpt, ht]
  · rfl

theorem setPte (k : Kernel) (d : Fin nenv) (pte : BitVec 32) (hva : va < utop) :
    HighSame k (k.setPte d va pte) := by
  have hlow := pdeno_lt hva
  have hkern : Kernel.kernPde (pdeno va) = false := by
    simp [Kernel.kernPde, not_le.mpr hlow]
  unfold Kernel.setPte
  cases hpd : k.pds d with
  | none => exact fun _ _ _ => rfl
  | some pd =>
    dsimp only
    split
    · rename_i t ht
      have := modPd k d (f := fun pd => { pd with
        pt := update pd.pt (pdeno va) (some (t.set (pteno va) pte)) })
        fun _ _ hj => update_of_ne (ne_of_gt (hlow.trans_le hj)) _ _
      rwa [Kernel.modPd, hpd] at this
    · rw [hkern]
      exact fun _ _ _ => rfl

theorem frame : TableFrame HighSame (· < utop) where
  trunc _ hva := pgTrunc_lt hva
  trans h h' d i hi := (h' d i hi).trans (h d i hi)
  ofEq hp hk d i _ := by rw [Kernel.table, Kernel.table, hp, hk]
  modNptes k d _ _ := modPd k d fun _ _ _ => rfl
  setTable k d va _ hva :=
    modPd k d fun _ _ hj => update_of_ne (ne_of_gt ((pdeno_lt hva).trans_le hj)) _ _
  setPte k d _ pte hva := setPte k d pte hva

end HighSame

def Grows (k k' : Kernel) : Prop :=
  ∀ (d : Fin nenv) (i : Fin nlpg), (k.table d i).isSome = true → (k'.table d i).isSome = true

namespace Grows

theorem modPd (k : Kernel) (d : Fin nenv) {f : EnvPd → EnvPd}
    (hf : ∀ pd i, (pd.pt i).isSome = true → ((f pd).pt i).isSome = true) :
    Grows k (k.modPd d f) := by
  intro e i hi
  rw [Kernel.modPd_table]
  split
  · rename_i hed
    subst hed
    cases hpd : k.pds e with
    | none => simp [Kernel.table, hpd] at hi
    | some pd =>
      simp only [Kernel.table, hpd, bind_some, EnvPd.tableAt] at hi ⊢
      cases hnew : (f pd).pt i with
      | some t => rfl
      | none =>
        have hold : pd.pt i = none := by
          cases h : pd.pt i with
          | none => rfl
          | some t => simpa [hnew] using hf pd i (by rw [h]; rfl)
        simpa [hold] using hi
  · exact hi

theorem setPte (k : Kernel) (d : Fin nenv) (va pte : BitVec 32) : Grows k (k.setPte d va pte) := by
  unfold Kernel.setPte
  cases hpd : k.pds d with
  | none => exact fun _ _ h => h
  | some pd =>
    dsimp only
    split
    · rename_i t ht
      have := modPd k d (f := fun pd => { pd with
        pt := update pd.pt (pdeno va) (some (t.set (pteno va) pte)) }) fun pd i h => by
          by_cases hi : i = pdeno va
          · simp [hi]
          · simpa [update_of_ne hi] using h
      rwa [Kernel.modPd, hpd] at this
    · split
      · intro e i h
        simp only [Kernel.table] at h ⊢
        cases hpe : k.pds e with
        | none => simp [hpe] at h
        | some pe =>
          simp only [hpe, bind_some] at h ⊢
          cases hown : pe.pt i with
          | some t => rfl
          | none =>
            simp only [hown] at h ⊢
            by_cases hi : i = pdeno va
            · subst hi
              split
              · rename_i hk
                simpa [hk] using h
              · rename_i hk
                simp [hk] at h
            · simpa [update_of_ne hi] using h
      · exact fun _ _ h => h

theorem frame : TableFrame Grows fun _ => True where
  trunc _ _ := trivial
  trans h h' d i hi := h' d i (h d i hi)
  ofEq hp hk d i hi := by rwa [Kernel.table, hp, hk]
  modNptes k d _ _ := modPd k d fun _ _ h => h
  setTable k d va _ _ := modPd k d fun pd i h => by
    by_cases hi : i = pdeno va
    · simp [hi]
    · simpa [update_of_ne hi] using h
  setPte k d va pte _ := setPte k d va pte

end Grows

/-! ## 3. The calls, and the condition on their arguments -/

/-- The calls that edit page tables, with their arguments. Without a target they are the
    `sys_self_*` calls. -/
inductive PteCall where
  | insertPte (tgt : Option (BitVec 32 × BitVec 32)) (kcap pte va : BitVec 32)
  | insertPteRange (tgt : Option (BitVec 32 × BitVec 32)) (kcap : BitVec 32)
      (ptes : List (BitVec 32)) (num va : BitVec 32) (completed : Counter)
  | modPteRange (tgt : Option (BitVec 32 × BitVec 32)) (kcap add remove va num : BitVec 32)
  | removeVas (tgt : Option (BitVec 32 × BitVec 32)) (vas : List (BitVec 32)) (num : BitVec 32)
  | bufferMap (tgt : Option (BitVec 32 × BitVec 32)) (xn : Option XnName) (kx pte va : BitVec 32)

/-- The pages of a range that the loops visit, in 32-bit arithmetic, lie below `UTOP`. -/
def LowRange (va : BitVec 32) (n : Nat) : Prop :=
  ∀ i < n, va + 4096 * BitVec.ofNat 32 i < utop

/-- The target is named with a slot that no environment has. -/
def NoTarget : Option (BitVec 32 × BitVec 32) → Prop
  | none => False
  | some (ke, _) => maxCapno ≤ ke.toNat

namespace PteCall

/-- The call, made by environment `cur` in state `k`, returns in state `k'`. -/
def Leads (k : Kernel) (cur : Fin nenv) (k' : Kernel) : PteCall → Prop
  | insertPte tgt kcap pte va => (sysInsertPte k cur tgt kcap pte va).2 = k'
  | insertPteRange tgt kcap ptes num va completed =>
    InsertRangeLeads k cur tgt kcap ptes num va completed k'
  | modPteRange tgt kcap add remove va num =>
    (sysModPteRange k cur tgt kcap add remove va num).2 = k'
  | removeVas tgt vas num => (sysRemoveVas k cur tgt vas num).2 = k'
  | bufferMap tgt xn kx pte va =>
    ∃ fuel r, sysBcBufferMap fuel k cur tgt xn kx pte va = some (r, k')

/-- If the call counts, it counts in user memory. -/
def Counts (k : Kernel) (cur : Fin nenv) : PteCall → Prop
  | insertPteRange tgt kcap ptes num va completed =>
    ∀ i c d, InsertRuns k cur tgt kcap num va i c d → CountsInUser ptes num completed
  | _ => True

/-- The call is refused for its arguments, or visits no page from `UTOP` on and counts in user
    memory. -/
def StaysBelow : PteCall → Prop
  | insertPte .. => True
  | insertPteRange tgt kcap ptes num va completed =>
    NoTarget tgt ∨ maxCapno ≤ kcap.toNat ∨ rangeRejected va num = true ∨
      CountsInUser ptes num completed ∧
        LowRange va (min (num.toNat - completed.word.toNat) ptes.length)
  | modPteRange tgt kcap add remove va num =>
    NoTarget tgt ∨ maxCapno ≤ kcap.toNat ∨ add &&& pgMbz ≠ 0 ∨ remove &&& pgU ≠ 0 ∨
      rangeRejected va num = true ∨ LowRange va num.toNat
  | removeVas .. => True
  | bufferMap tgt xn kx pte va =>
    NoTarget tgt ∨ maxCapno ≤ kx.toNat ∨ xn = none ∨ isPresent pte = false ∨ pgno pte = 0 ∨
      2 ^ 16 ≤ pgno pte ∨ va < utop

end PteCall

section
variable {R : Kernel → Kernel → Prop} {V : BitVec 32 → Prop} {k k' : Kernel} {cur : Fin nenv}
  {tgt : Option (BitVec 32 × BitVec 32)}

theorem envGetcap_none {e : Env} {k : BitVec 32} (hk : maxCapno ≤ k.toNat) :
    envGetcap e k = .error .capInvalid := by
  simp [envGetcap, not_lt.mpr hk]

theorem targetEnv_none (h : NoTarget tgt) : targetEnv k cur tgt = .error .capInvalid := by
  cases tgt with
  | none => exact h.elim
  | some t => simp [targetEnv, envAccess, envGetcap_none h]

theorem InsertRuns.accepted {kcap total va : BitVec 32} {i d : Fin nenv} {c : ClistCap} {P : Prop}
    (h : InsertRuns k cur tgt kcap total va i c d)
    (hor : NoTarget tgt ∨ maxCapno ≤ kcap.toNat ∨ rangeRejected va total = true ∨ P) : P := by
  rcases hor with hn | hn | hn | hP
  · cases (targetEnv_none hn).symm.trans h.target
  · cases (envGetcap_none hn).symm.trans h.cap
  · cases hn.symm.trans h.range
  · exact hP

theorem PteCall.StaysBelow.counts {call : PteCall} (h : call.StaysBelow) : call.Counts k cur := by
  cases call with
  | insertPteRange => exact fun _ _ _ hruns => (hruns.accepted h).1
  | _ => trivial

/-- The pages of a range are in `V` if those below `UTOP` are, or all. -/
theorem LowRange.within {n : Nat} (hV : ∀ va < utop, V va) (h : LowRange va n ∨ ∀ va, V va) :
    ∀ i < n, V (va + 4096 * BitVec.ofNat 32 i) := by
  intro i hi
  rcases h with h | h
  · exact hV _ (h i hi)
  · exact h _

namespace CallFrame

theorem pmapInsertRange (h : CallFrame R V)
    {kcap total va completed done : BitVec 32} {ptes : List (BitVec 32)} {userreq : Bool} {r : Ret}
    (hrange : ∀ i c d, InsertRuns k cur tgt kcap total va i c d →
      ∀ j < min (total.toNat - completed.toNat) ptes.length, V (va + 4096 * BitVec.ofNat 32 j))
    (heq : pmapInsertRange k cur tgt kcap ptes total va completed userreq = (r, done, k')) :
    R k k' := by
  rcases pmapInsertRange_cases heq with rfl | rfl | ⟨i, c, d, hruns, hloop⟩
  · exact h.same _
  · exact h.halt k
  rw [← (Prod.mk.inj (Prod.mk.inj hloop).2).2]
  exact h.pmapInsertLoop _ completed k (hrange i c d hruns)

/-- A relation that every step respects holds across every call that stays where it is
    respected. -/
theorem leads (h : CallFrame R V) (hV : ∀ va < utop, V va) {call : PteCall}
    (hcounts : call.Counts k cur) (hlow : call.StaysBelow ∨ ∀ va, V va) (hcall : call.Leads k cur k') : R k k' := by
  cases call with
  | insertPte tgt kcap pte va =>
    have hrun : Exokernel.pmapInsertRange k cur tgt kcap [pte] 1 va 0 true = (_, _, k') :=
      Prod.ext rfl (Prod.ext rfl hcall)
    refine h.pmapInsertRange (fun _ _ _ hruns j hj => hV _ ?_) hrun
    obtain rfl : j = 0 := by simpa using hj
    simpa [rangeRejected] using hruns.range
  | insertPteRange tgt kcap ptes num va completed =>
    obtain ⟨hwild, i, c, d, hruns⟩ | hrun := hcall
    · exact absurd (hcounts i c d hruns) hwild
    refine h.pmapInsertRange (fun _ _ _ hruns => ?_) (Prod.ext rfl (Prod.ext rfl hrun))
    exact LowRange.within hV (hlow.imp_left fun hlow => (hruns.accepted hlow).2)
  | modPteRange tgt kcap add remove va num =>
    obtain rfl := hcall
    unfold sysModPteRange
    split
    · exact h.same k
    rename_i i hi
    split
    · exact h.same k
    rename_i hmbz
    split
    · exact h.same k
    rename_i hu
    split
    · exact h.same k
    rename_i hrej
    split
    · exact h.same k
    rename_i c hc
    have hmask : add &&& pgMask &&& pgMask = add &&& pgMask := by
      rw [BitVec.and_assoc, BitVec.and_self]
    have hrange : LowRange va num.toNat ∨ ∀ va, V va := by
      refine hlow.imp_left fun hlow => ?_
      rcases hlow with h | h | h | h | h | h
      · rw [targetEnv_none h] at hi
        cases hi
      · rw [envGetcap_none h] at hc
        cases hc
      · exact absurd h hmbz
      · exact absurd h hu
      · exact absurd h hrej
      · exact h
    split
    · exact h.halt k
    · exact h.modPteLoop num.toNat k hmask (LowRange.within hV hrange)
  | removeVas tgt vas num =>
    obtain rfl := hcall
    unfold sysRemoveVas
    split
    · exact h.same k
    rename_i i hi
    split
    · exact h.halt k
    rename_i d hd
    exact (h.map k d (k.envs i).id Cap.null 0).toKeeps.removeVasLoop (a := none) hV num.toNat
      (h.same k)
  | bufferMap tgt xn kx pte va =>
    obtain ⟨fuel, r, heq⟩ := hcall
    unfold sysBcBufferMap at heq
    split at heq
    · cases heq; exact h.same k
    rename_i i hi
    split at heq
    · cases heq; exact h.same k
    rename_i hpres
    replace hpres : isPresent pte = true := by simpa using hpres
    split at heq
    · cases heq; exact h.same k
    split at heq
    · cases heq; exact h.same k
    rename_i c hc
    simp only [pgno_fixed] at heq
    split at heq
    · cases heq; exact h.same k
    rename_i hp
    have hva : V va := by
      rcases hlow with (h | h | h | h | h | h | h) | h
      · rw [targetEnv_none h] at hi
        cases hi
      · rw [envGetcap_none h] at hc
        cases hc
      · cases h
      · exact absurd hpres (by rw [h]; decide)
      · omega
      · exact absurd (.inl (k.mem.nppage_le.trans h)) hp
      · exact hV va h
      · exact h va
    split at heq
    · cases heq; exact h.same k
    split at heq
    · cases heq; exact h.same k
    split at heq
    · cases heq; exact h.same k
    obtain ⟨x, -, heq⟩ := bind_eq_some_iff.mp heq
    obtain ⟨r', -, heq⟩ := map_eq_some_iff.mp heq
    split at heq
    · cases heq; exact h.same k
    split at heq
    · cases heq; exact h.halt k
    rename_i d hd
    obtain rfl : _ = k' := congrArg Prod.snd heq
    exact h.bufferMapPage k hva ((isPresent_fixed pte).trans hpres)

end CallFrame

end

/-! ## 4. A state for every other call

Every environment of `probe` has the same directory, with tables for all pages below `UTOP`
and none above; one page is free. A call that gets to a page above allocates the table it
misses there. -/

section
variable {envid : BitVec 32} {entry : Nat → BitVec 32} {xn : XnName} {d cur : Fin nenv}
variable {va : BitVec 32}

end

section
variable {tgt : Option (BitVec 32 × BitVec 32)} {entry : Nat → BitVec 32} {xn : XnName}
variable {d : Fin nenv} {va : BitVec 32}

end

/-! ## 5. What the calls can reach -/

end Exokernel
