import Exokernel.Kern.Bc
import Exokernel.Lib.Outcome

/-!
# Walking through the mapping calls — the invariant rule of `kern/pmap.c`

`sys_insert_pte_range`, `sys_mod_pte_range`, `sys_remove_vas` and `sys_bc_buffer_map` are
long, and there are several things to say about them: that counters agree with page tables,
that limits are kept, that the kernel's entries stay. **The way through the code is the same
each time**, so it is walked here once, for an invariant `I` that is left open. `Keeps`,
`KeepsMap` and `KeepsMod` list what `I` has to survive: one condition for each elementary
step, with what the code has checked when it takes the step.

`ppage_insert` records a mapping before it makes it, and allocates a page table or removes
an old mapping in between. `I` is therefore a family: `I none` holds between calls, `I (some a)`
while mapping `a` is recorded but not yet made.
-/
set_option autoImplicit false

namespace Exokernel

open Option Nat Outcome

/-! ## 1. The elementary steps -/

/-- A mapping that is recorded with its page and not yet in a page table. -/
structure Pending where
  page : Nat
  vpage : Vpage
  writable : Bool

/-- `I` survives what all the calls do, in directory `d` for environment `envid` and at
    addresses in `V`. -/
structure Keeps (I : Option Pending → Kernel → Prop) (d : Fin nenv) (envid : BitVec 32)
    (V : BitVec 32 → Prop) : Prop where
  trunc : ∀ va, V va → V (pgTrunc va)
  halt : ∀ a k, I a k → I a k.halt
  table : ∀ a k va p m, I a k → V va → (k.pds d).isSome = true → k.table d (pdeno va) = none →
    ppageAlloc k.mem .kernel false = (.ok p, m) →
    I a ((k.setMem m).setTable d (pdeno va) (some ⟨p, fun _ => 0⟩))
  unmap : ∀ a k va pte, I a k → V va → k.pte d va = some pte → isPresent pte = true →
    pgno pte < k.mem.nppage → I a (ppageRemove k d envid va)
  idle : ∀ a k va old pte, I a k → V va → k.pte d va = some old → isPresent old = false →
    isPresent pte = false → I a (k.setPte d va pte)
  bogus : ∀ a k va pte, I a k → V va → k.pte d va = some pte → isPresent pte = true →
    k.mem.nppage ≤ pgno pte → I a (k.setPte d va 0)

/-- `I` survives mapping a page. `May k p w` says that page `p` may be given one more mapping,
    `New k p` that it was taken off a free list for it; `n` is the number of the page that is
    asked for, 0 for any. A mapping made leads to `Post`. -/
structure KeepsMap (I : Option Pending → Kernel → Prop) (Post : Kernel → Prop)
    (New : Kernel → Nat → Prop) (May : Kernel → Nat → Bool → Prop) (d : Fin nenv)
    (envid : BitVec 32) (V : BitVec 32 → Prop) (c : Cap) (n : Nat) : Prop
    extends Keeps I d envid V where
  malloc : ∀ k p w, I none k → May k p w → I none (k.setMem (kmalloc k.mem).2) ∧
    May (k.setMem (kmalloc k.mem).2) p w
  reclaim : ∀ k, I none k → n ≠ 0 → n < k.mem.nppage → (k.mem.pages n).buf = none →
    (k.mem.pages n).status = .free → (k.mem.pages n).pinned = 0 →
    I none (k.setMem (ppageReclaimPage k.mem n .user)) ∧
      New (k.setMem (ppageReclaimPage k.mem n .user)) n
  alloc : ∀ k p m userreq, I none k → n = 0 → ppageAlloc k.mem .user userreq = (.ok p, m) →
    I none (k.setMem m) ∧ New (k.setMem m) p
  guard : ∀ k p acl w, I none k → New k p →
    aclAdd (aclInit (k.mem.pages p).acl (k.mem.pages p).acl.length) (.ofCap c) = .ok acl →
    I none (k.modPage p ({ · with acl := acl })) ∧ May (k.modPage p ({ · with acl := acl })) p w
  unguard : ∀ k p acl, I none k → New k p →
    I none ((k.modPage p ({ · with acl := acl })).setMem
      (ppageFree (k.modPage p ({ · with acl := acl })).mem p))
  check : ∀ k w, I none k → n ≠ 0 → n < k.mem.nppage → (k.mem.pages n).buf = none →
    (k.mem.pages n).status ≠ .free → ppageAclCheck k.mem n c (if w then aclW else 0) = .ok () →
    ppcompatState ((k.mem.pages n).readers.toNat + 1)
      (if w then (k.mem.pages n).writers.toNat + 1 else (k.mem.pages n).writers.toNat)
      (k.mem.pages n).state = true →
    May k n w
  add : ∀ k va p w, I none k → V va → pgTrunc va = va → May k p w →
    I (some ⟨p, ⟨envid, va⟩, w⟩) (k.modPage p (·.addVpage ⟨envid, va⟩ w))
  undo : ∀ k va p w, I (some ⟨p, ⟨envid, va⟩, w⟩) k →
    I none (k.modPage p (·.dropVpage ⟨envid, va⟩ w)) ∧
      May (k.modPage p (·.dropVpage ⟨envid, va⟩ w)) p w
  finish : ∀ k va p perm old, I (some ⟨p, ⟨envid, va⟩, isWritable perm⟩) k → V va →
    pgTrunc va = va → k.pte d va = some old → isPresent old = false → isPresent perm = true →
    perm &&& pgMask = perm →
    Post ((k.setPte d va (pp2pa p ||| perm)).modNptes d (pdeno va) (· + 1))
  giveBack : ∀ k p w, I none k → May k p w → I none (k.setMem (ppageFree k.mem p))

/-- `I` survives an edit of flags. -/
structure KeepsMod (I : Option Pending → Kernel → Prop) (d : Fin nenv) (envid : BitVec 32)
    (V : BitVec 32 → Prop) (c : Cap) (perm : BitVec 3) (remove : BitVec 32) : Prop
    extends Keeps I d envid V where
  soft : ∀ k va pte add, I none k → V va → k.pte d va = some pte → isPresent pte = true →
    add &&& pgMask = add → mmuHasHardwareFlags add = false → mmuHasHardwareFlags remove = false →
    I none (k.setPte d va (editPte pte add remove))
  hard : ∀ k va pte add, I none k → V va → k.pte d va = some pte → isPresent pte = true →
    add &&& pgMask = add → ppageAclCheck k.mem (pgno pte) c perm = .ok () →
    ppcompatState (k.mem.pages (pgno pte)).readers.toNat
      ((k.mem.pages (pgno pte)).writers.setWidth 32 + writersAdj pte (editPte pte add remove)).toNat
      (k.mem.pages (pgno pte)).state = true →
    I none ((k.setPte d va (editPte pte add remove)).modPage (pgno pte) (fun pp =>
      { pp with
        writers := pp.writers + (writersAdj pte (editPte pte add remove)).setWidth 16 }))

/-! ## 2. Entries before and after -/

section
variable {k k' : Kernel} {d : Fin nenv} {va envid : BitVec 32}

theorem ppageAlloc_error {m m' : Mem} {t : PpStatus} {u : Bool} {r : Errno}
    (h : ppageAlloc m t u = (.error r, m')) : m' = m := by
  rcases ppageAlloc_cases h with ⟨-, -, he⟩ | ⟨p, hp, -⟩
  · exact he
  · cases hp

theorem Kernel.modNptes_pte (i : Fin nlpg) (f : BitVec 16 → BitVec 16) :
    (k.modNptes d i f).pte d va = k.pte d va := by
  simp only [Kernel.pte, Kernel.table, Kernel.modNptes, Kernel.modPd, Kernel.setPd,
    Function.update_self]
  cases k.pds d with
  | none => rfl
  | some pd => rfl

theorem pdeCheckNAlloc_ok (h : pdeCheckNAlloc k d va = (.ok (), k')) :
    ((k'.pds d).all fun pd => decide (pd.rc.toInt ≤ 0)) = false ∧
      ∃ t, k'.table d (pdeno va) = some t := by
  unfold pdeCheckNAlloc at h
  split at h
  · cases h
  rename_i hrc
  split at h
  · rename_i t ht
    cases h
    exact ⟨by simpa using hrc, t, ht⟩
  split at h
  · cases h
  cases h
  cases hpd : k.pds d with
  | none => simp [hpd] at hrc
  | some pd =>
    simpa [Kernel.table, Kernel.setTable, Kernel.modPd, Kernel.setPd, hpd] using hrc

theorem pdeCheckNAlloc_pte (h : pdeCheckNAlloc k d va = (.ok (), k')) :
    ∃ pte, k'.pte d va = some pte := by
  obtain ⟨-, t, ht⟩ := pdeCheckNAlloc_ok h
  exact ⟨t.pte (pteno va), by simp [Kernel.pte, ht]⟩

variable {pte : BitVec 32}

/-- `ppage_remove` of a mapping: the page loses the record and may become free, the entry is
    cleared. `ppage_free` looks at the count itself, so it may as well be called always. -/
theorem ppageRemove_eq (h : k.pte d va = some pte) (hp : isPresent pte = true)
    (hlt : pgno pte < k.mem.nppage) :
    ppageRemove k d envid va =
      ((k.setMem (ppageFree (k.mem.modPage (pgno pte)
        (·.dropVpage ⟨envid, pgTrunc va⟩ (isWritable pte))) (pgno pte))).modNptes d (pdeno va)
        (· - 1)).setPte d va 0 := by
  unfold ppageRemove
  simp only [h, hp, if_true, not_le.mpr hlt, if_false]
  split
  · rfl
  rename_i hne
  rw [ppageFree, if_pos (by simpa using hne)]
  rfl

theorem ppageRemove_pte (h : k.pte d va = some pte) (hp : isPresent pte = true)
    (hlt : pgno pte < k.mem.nppage) : (ppageRemove k d envid va).pte d va = some 0 := by
  rw [ppageRemove_eq h hp hlt]
  apply Kernel.setPte_pte_self
  rw [Kernel.modNptes_pte]
  exact h

theorem ppageRemove_bogus (h : k.pte d va = some pte)
    (hp : isPresent pte = true) (hle : k.mem.nppage ≤ pgno pte) :
    ppageRemove k d envid va = k := by
  unfold ppageRemove
  simp only [h, hp, if_true, hle]

theorem toNat_pgTrunc (va : BitVec 32) : (pgTrunc va).toNat = va.toNat / 4096 * 4096 := by
  have hva := va.isLt
  rw [pgTrunc, BitVec.toNat_shiftLeft, BitVec.toNat_ushiftRight, shiftRight_eq_div_pow,
    shiftLeft_eq]
  omega

theorem pgTrunc_pgTrunc (va : BitVec 32) : pgTrunc (pgTrunc va) = pgTrunc va := by
  apply BitVec.eq_of_toNat_eq
  simp only [toNat_pgTrunc]
  omega

theorem getLsbD_page {f : BitVec 32} (hf : f >>> 12 = 0) (i : Nat) : f.getLsbD (12 + i) = false := by
  have := congrArg (fun x => BitVec.getLsbD x i) hf
  simpa using this

theorem pgno_editPte {add remove : BitVec 32} (ha : add >>> 12 = 0) (hr : remove >>> 12 = 0)
    (pte : BitVec 32) : pgno (editPte pte add remove) = pgno pte := by
  unfold pgno editPte
  congr 1
  refine BitVec.eq_of_getLsbD_eq fun i _ => ?_
  simp only [BitVec.getLsbD_ushiftRight, BitVec.getLsbD_or, BitVec.getLsbD_and, BitVec.getLsbD_not,
    getLsbD_page ha, getLsbD_page hr]
  by_cases hi : 12 + i < 32
  · simp [hi]
  · simp [hi, BitVec.getLsbD_of_ge pte (12 + i) (by omega)]

/-! What `pmap_insert_common` makes of an entry keeps page number, `PG_P` and `PG_W`. -/

theorem isPresent_fixed (pte : BitVec 32) :
    isPresent (pte &&& ~~~pgMbz ||| pgU) = isPresent pte := by
  simp [isPresent, pgMbz, pgU]

theorem pgno_fixed (pte : BitVec 32) : pgno (pte &&& ~~~pgMbz ||| pgU) = pgno pte :=
  pgno_editPte (by decide) (by decide) pte

theorem isPresent_mask (pte : BitVec 32) : isPresent (pte &&& pgMask) = isPresent pte := by
  simp [isPresent, pgMask]

theorem isWritable_mask (pte : BitVec 32) : isWritable (pte &&& pgMask) = isWritable pte := by
  simp [isWritable, pgMask]

/-! An entry made from a page and flags. -/

theorem isPresent_pp2pa (p : Nat) (perm : BitVec 32) :
    isPresent (pp2pa p ||| perm) = isPresent perm := by
  simp [isPresent, pp2pa]

theorem isWritable_pp2pa (p : Nat) (perm : BitVec 32) :
    isWritable (pp2pa p ||| perm) = isWritable perm := by
  simp [isWritable, pp2pa]

theorem pgno_pp2pa {p : Nat} {perm : BitVec 32} (hp : p < 2 ^ 20) (hmask : perm &&& pgMask = perm) :
    pgno (pp2pa p ||| perm) = p := by
  have hflags : perm >>> 12 = 0#32 := by
    rw [← hmask, BitVec.ushiftRight_and_distrib, show pgMask >>> 12 = 0#32 by decide, BitVec.and_zero]
  have hpage : (pp2pa p) >>> 12 = BitVec.ofNat 32 p := by
    apply BitVec.eq_of_toNat_eq
    rw [pp2pa, BitVec.toNat_ushiftRight, BitVec.toNat_shiftLeft, BitVec.toNat_ofNat,
      shiftRight_eq_div_pow, shiftLeft_eq]
    omega
  rw [pgno, BitVec.ushiftRight_or_distrib, hflags, hpage, BitVec.or_zero, BitVec.toNat_ofNat]
  omega

theorem pmapInsertCommon_some {pte' : BitVec 32}
    (h : pmapInsertCommon k d envid va pte = (.ok (some pte'), k')) :
    pte' = (pte &&& ~~~pgMbz ||| pgU) ∧ isPresent pte = true := by
  unfold pmapInsertCommon at h
  split at h
  · cases h
  dsimp only at h
  split at h
  · cases h
  split at h
  · cases h
  · rename_i hp
    exact ⟨(some.inj (Except.ok.inj (Prod.mk.inj h).1)).symm, by simpa using hp⟩

theorem pmapInsertOne_true {c : Cap} {userreq : Bool}
    (h : pmapInsertOne k d envid c va pte userreq = (.ok true, k')) : isPresent pte = true := by
  unfold pmapInsertOne at h
  split at h
  · cases h
  · cases h
  · rename_i he
    exact (pmapInsertCommon_some he).2

theorem pmapInsertOne_same {c : Cap} {userreq : Bool}
    (h : k.pte d va = some pte) :
    pmapInsertOne k d envid c va pte userreq = (.ok false, k) ∨
      ∃ e, pmapInsertOne k d envid c va pte userreq = (.error e, k.halt) := by
  obtain ⟨t, ht, -⟩ := map_eq_some_iff.mp h
  cases hrc : ((k.pds d).all fun pd => decide (pd.rc.toInt ≤ 0)) with
  | true =>
    refine .inr ⟨.unspecified, ?_⟩
    simp [pmapInsertOne, pmapInsertCommon, pdeCheckNAlloc, hrc]
  | false =>
    refine .inl ?_
    simp [pmapInsertOne, pmapInsertCommon, pdeCheckNAlloc, hrc, ht, h]

end

/-! ## 3. The walk -/

namespace Keeps

variable {I : Option Pending → Kernel → Prop} {d : Fin nenv} {envid : BitVec 32}
  {V : BitVec 32 → Prop} {a : Option Pending} {k : Kernel} {va : BitVec 32}

variable (h : Keeps I d envid V)
include h

theorem pdeCheckNAlloc (hk : I a k) (hva : V va) :
    I a (pdeCheckNAlloc k d va).2 := by
  unfold Exokernel.pdeCheckNAlloc
  split
  · exact h.halt a k hk
  rename_i hrc
  have hsome : (k.pds d).isSome = true := by
    cases hpd : k.pds d with
    | none => exact absurd (by simp [hpd]) hrc
    | some pd => rfl
  cases ht : k.table d (pdeno va) with
  | some t => exact hk
  | none =>
    dsimp only
    split
    · rename_i halloc
      rw [ppageAlloc_error halloc]
      exact hk
    · rename_i halloc
      exact h.table a k va _ _ hk hva hsome ht halloc

/-- `ppage_remove` of an entry that is present, whether it names a page or not. -/
theorem ppageRemove (hk : I a k) (hva : V va) {pte : BitVec 32}
    (hpte : k.pte d va = some pte) (hp : isPresent pte = true) :
    I a (ppageRemove k d envid va) := by
  rcases lt_or_ge (pgno pte) k.mem.nppage with hlt | hge
  · exact h.unmap a k va pte hk hva hpte hp hlt
  · rw [ppageRemove_bogus hpte hp hge]
    exact hk

/-- `ppage_remove`, and the entry cleared once more. -/
theorem purge (hk : I a k) (hva : V va) {pte : BitVec 32}
    (hpte : k.pte d va = some pte) (hp : isPresent pte = true) :
    I a ((Exokernel.ppageRemove k d envid va).setPte d va 0) := by
  rcases lt_or_ge (pgno pte) k.mem.nppage with hlt | hge
  · exact h.idle a _ va 0 0 (h.unmap a k va pte hk hva hpte hp hlt) hva
      (ppageRemove_pte hpte hp hlt) rfl rfl
  · rw [ppageRemove_bogus hpte hp hge]
    exact h.bogus a k va pte hk hva hpte hp hge

theorem pmapInsertCommon (hk : I a k) (hva : V va) (newPte : BitVec 32) :
    I a (pmapInsertCommon k d envid va newPte).2 := by
  have hpde := h.pdeCheckNAlloc hk hva
  unfold Exokernel.pmapInsertCommon
  split
  · rename_i heq
    rwa [heq] at hpde
  rename_i k₁ heq
  rw [heq] at hpde
  obtain ⟨old, hold⟩ := pdeCheckNAlloc_pte heq
  simp only [hold, getD_some]
  split
  · exact hpde
  cases hp : isPresent old with
  | true =>
    have hpurge := h.purge hpde hva hold hp
    have hzero : ((Exokernel.ppageRemove k₁ d envid va).setPte d va 0).pte d va = some 0 := by
      rcases lt_or_ge (pgno old) k₁.mem.nppage with hlt | hge
      · exact Kernel.setPte_pte_self (ppageRemove_pte hold hp hlt) 0
      · rw [ppageRemove_bogus hold hp hge]
        exact Kernel.setPte_pte_self hold 0
    split
    · rename_i hnew
      exact h.idle a _ va 0 newPte hpurge hva hzero rfl (by simpa using hnew)
    · exact hpurge
  | false =>
    split
    · rename_i hnew
      exact h.idle a _ va old newPte hpde hva hold hp (by simpa using hnew)
    · exact hpde

/-- A round that asks for no page ends with `pmap_insert_common`. -/
theorem pmapInsertOne_absent (hk : I a k) (hva : V va) {c : Cap}
    {pte : BitVec 32} {userreq : Bool} {r : Except Errno Bool} {k' : Kernel}
    (hp : isPresent pte = false)
    (heq : pmapInsertOne k d envid c va pte userreq = (r, k')) : I a k' := by
  have hcommon := h.pmapInsertCommon hk hva pte
  unfold pmapInsertOne at heq
  split at heq
  · rename_i he
    rw [he] at hcommon
    cases heq
    exact hcommon
  · rename_i he
    rw [he] at hcommon
    cases heq
    exact hcommon
  · rename_i he
    exact absurd (pmapInsertCommon_some he).2 (by rw [hp]; decide)

/-- `sys_remove_vas`, from any point of its loop on. -/
theorem removeVasLoop (hV : ∀ va, va < utop → V va) (num : Nat) :
    ∀ {vas : List (BitVec 32)} {k : Kernel}, I a k → I a (removeVasLoop d envid num vas k).2 := by
  induction num with
  | zero => exact fun hk => hk
  | succ num ih =>
    intro vas k hk
    cases vas with
    | nil => exact hk
    | cons va vas =>
      unfold Exokernel.removeVasLoop
      split
      · exact hk
      rename_i hlow
      have hva := hV va (BitVec.not_le.mp hlow)
      split
      · exact hk
      rename_i pte hpte
      split
      · rename_i hp
        exact ih (h.ppageRemove hk hva hpte hp)
      · exact ih hk

end Keeps

namespace KeepsMap

variable {I : Option Pending → Kernel → Prop} {Post : Kernel → Prop} {New : Kernel → Nat → Prop}
  {May : Kernel → Nat → Bool → Prop} {d : Fin nenv} {envid : BitVec 32} {V : BitVec 32 → Prop}
  {c : Cap} {n : Nat} {k k' : Kernel} {va : BitVec 32}

variable {pte : BitVec 32} {userreq : Bool}

/-- What is known of page `p` that was found: it was free, or it is page `n`, in use. -/
def Found (New : Kernel → Nat → Prop) (n : Nat) (k : Kernel) (p : Nat) : Bool → Prop
  | true => New k p
  | false => p = n ∧ n ≠ 0 ∧ n < k.mem.nppage ∧ (k.mem.pages n).buf = none ∧
      (k.mem.pages n).status ≠ .free

/-- **`ppage_insert`** makes the mapping, or undoes what it had recorded. -/
theorem ppageInsert (h : KeepsMap I Post New May d envid V c n) (hk : I none k) (hva : V va)
    {p : Nat} {perm : BitVec 32} (hmay : May k p (isWritable perm)) (hp : isPresent perm = true)
    (hmask : perm &&& pgMask = perm) :
    Lands (fun _ => Post) (fun k' => I none k' ∧ May k' p (isWritable perm))
      (ppageInsert k d envid p va perm) := by
  have htr := pgTrunc_pgTrunc va
  have hva' := h.trunc va hva
  obtain ⟨hk₁, hmay₁⟩ := h.malloc k p (isWritable perm) hk hmay
  unfold Exokernel.ppageInsert
  dsimp only
  split
  · rename_i m hm
    rw [hm] at hk₁ hmay₁
    exact ⟨hk₁, hmay₁⟩
  rename_i m hm
  rw [hm] at hk₁ hmay₁
  have hadd := h.add _ _ p _ hk₁ hva' htr hmay₁
  have hpde := h.pdeCheckNAlloc hadd hva'
  split
  · rename_i e k₂ he
    rw [he] at hpde
    exact h.undo _ _ p _ hpde
  rename_i k₂ he
  rw [he] at hpde
  obtain ⟨old, hold⟩ := pdeCheckNAlloc_pte he
  simp only [hold, getD_some]
  change Post _
  cases hpo : isPresent old with
  | false => exact h.finish k₂ _ p perm old hpde hva' htr hold hpo hp hmask
  | true =>
    rcases lt_or_ge (pgno old) k₂.mem.nppage with hlt | hge
    · exact h.finish _ _ p perm 0 (h.unmap _ k₂ _ old hpde hva' hold hpo hlt) hva' htr
        (ppageRemove_pte hold hpo hlt) rfl hp hmask
    -- an entry that names no page is written over: as if it had been cleared first
    rw [ppageRemove_bogus hold hpo hge, ← Kernel.setPte_setPte 0]
    exact h.finish _ _ p perm 0 (h.bogus _ k₂ _ old hpde hva' hold hpo hge) hva' htr
      (Kernel.setPte_pte_self hold 0) rfl hp hmask

theorem pmapFindPage (h : KeepsMap I Post New May d envid V c n) (hk : I none k)
    (hn : pgno pte = n) (userreq : Bool) :
    Lands (fun q k₁ => I none k₁ ∧ Found New n k₁ q.1 q.2) (I none)
      (pmapFindPage k pte userreq) := by
  unfold Exokernel.pmapFindPage
  dsimp only
  rw [hn]
  split
  · rename_i hn0
    split
    · exact hk
    rename_i hlt
    replace hlt : n < k.mem.nppage := not_le.mp hlt
    split
    · exact hk
    rename_i hbuf
    replace hbuf : (k.mem.pages n).buf = none := by simpa using hbuf
    split
    · rename_i hfree
      split
      · exact hk
      · exact h.reclaim k hk hn0 hlt hbuf hfree (by omega)
    · rename_i hfree
      exact ⟨hk, rfl, hn0, hlt, hbuf, hfree⟩
  · rename_i hn0
    split
    · rename_i halloc
      rw [ppageAlloc_error halloc]
      exact hk
    · rename_i p m halloc
      exact h.alloc k p m userreq hk (not_not.mp hn0) halloc

/-- The check is passed, or a page that was free is given back. -/
theorem pmapCheckPage (h : KeepsMap I Post New May d envid V c n) (hk : I none k) {p : Nat}
    {new : Bool} (hfound : Found New n k p new) (pte : BitVec 32) :
    Lands (fun _ k' => I none k' ∧ May k' p (isWritable pte)) (I none)
      (pmapCheckPage k p new c pte) := by
  unfold Exokernel.pmapCheckPage
  cases new with
  | true =>
    -- it is guarded with `c`
    simp only [if_true]
    split
    · exact h.unguard k p _ hk hfound
    · rename_i acl hacl
      exact h.guard k p acl (isWritable pte) hk hfound hacl
  | false =>
    obtain ⟨rfl, hn0, hlt, hbuf, hfree⟩ := hfound
    simp only [Bool.false_eq_true, if_false]
    split
    · exact hk
    rename_i hacl
    cases hcompat : ppcompatState ((k.mem.pages p).readers.toNat + 1)
        (if isWritable pte then (k.mem.pages p).writers.toNat + 1
          else (k.mem.pages p).writers.toNat) (k.mem.pages p).state with
    | false => exact hk
    | true => exact ⟨hk, h.check k _ hk hn0 hlt hbuf hfree hacl hcompat⟩

theorem pmapInsertPage (h : KeepsMap I Post New May d envid V c n) (hk : I none k) (hva : V va)
    (hn : pgno pte = n) (hp : isPresent pte = true) (userreq : Bool) :
    Lands (fun _ => Post) (I none) (pmapInsertPage k d envid c va pte userreq) := by
  have hfind := h.pmapFindPage hk hn userreq
  unfold Exokernel.pmapInsertPage
  split
  · rename_i he
    rwa [he] at hfind
  rename_i p new k₁ he
  rw [he] at hfind
  have hcheck := h.pmapCheckPage hfind.1 hfind.2 pte
  split
  · rename_i he
    rwa [he] at hcheck
  rename_i k₂ he
  rw [he] at hcheck
  have hmask : pte &&& pgMask &&& pgMask = pte &&& pgMask := by
    rw [BitVec.and_assoc, BitVec.and_self]
  have hins := h.ppageInsert hcheck.1 hva
    (by rw [isWritable_mask]; exact hcheck.2) ((isPresent_mask pte).trans hp) hmask
  split
  · rename_i e k₃ he
    rw [he] at hins
    change I none _
    split
    · exact h.giveBack k₃ p _ hins.1 hins.2
    · exact hins.1
  · rename_i he
    rwa [he] at hins

/-- **One round of `pmap_insert_range`** ends with the mapping made or with `I`. -/
theorem pmapInsertOne (h : KeepsMap I Post New May d envid V c (pgno pte))
    (hk : I none k) (hva : V va) {r : Except Errno Bool}
    (heq : pmapInsertOne k d envid c va pte userreq = (r, k')) :
    (r = .ok true ∧ Post k') ∨ (r ≠ .ok true ∧ I none k') := by
  have hcommon := h.pmapInsertCommon hk hva pte
  unfold Exokernel.pmapInsertOne at heq
  split at heq
  · rename_i he
    rw [he] at hcommon
    cases heq
    exact .inr ⟨fun hr => (nomatch hr), hcommon⟩
  · rename_i he
    rw [he] at hcommon
    cases heq
    exact .inr ⟨fun hr => (nomatch hr), hcommon⟩
  rename_i pte' k₁ he
  rw [he] at hcommon
  obtain ⟨rfl, hp⟩ := pmapInsertCommon_some he
  have hpage := h.pmapInsertPage hcommon hva (pgno_fixed pte)
    ((isPresent_fixed pte).trans hp) userreq
  split at heq
  · rename_i he
    rw [he] at hpage
    cases heq
    exact .inr ⟨fun hr => (nomatch hr), hpage⟩
  · rename_i he
    rw [he] at hpage
    cases heq
    exact .inl ⟨rfl, hpage⟩

end KeepsMap

theorem page_succ (va : BitVec 32) (i : Nat) :
    va + 4096 * BitVec.ofNat 32 (i + 1) = va + 4096 + 4096 * BitVec.ofNat 32 i := by
  rw [BitVec.ofNat_add, BitVec.mul_add, BitVec.add_comm (4096 * _), ← BitVec.add_assoc]
  rfl

namespace KeepsMod

variable {I : Option Pending → Kernel → Prop} {d : Fin nenv} {envid : BitVec 32}
  {V : BitVec 32 → Prop} {c : Cap} {perm : BitVec 3} {remove : BitVec 32} {k : Kernel}
  {va : BitVec 32}

theorem isPresent_editPte {pte : BitVec 32} (hp : isPresent pte = false) (add : BitVec 32) :
    isPresent (editPte pte (add &&& ~~~pgP) remove) = false := by
  have hbit : pte[0] = false := by simpa [isPresent] using hp
  simp [isPresent, editPte, pgP, hbit]

theorem mask_clearP {add : BitVec 32} (h : add &&& pgMask = add) :
    add &&& ~~~pgP &&& pgMask = add &&& ~~~pgP := by
  rw [BitVec.and_assoc, BitVec.and_comm (~~~pgP), ← BitVec.and_assoc, h]

/-- **One round of `sys_mod_pte_range`.** What it adds in the next round are still flags. -/
theorem modPteOne (h : KeepsMod I d envid V c perm remove) (hk : I none k) (hva : V va)
    {add : BitVec 32} (hadd : add &&& pgMask = add) :
    Lands (fun add' k' => I none k' ∧ add' &&& pgMask = add') (I none)
      (modPteOne k d c perm va add remove) := by
  have hpde := h.pdeCheckNAlloc hk hva
  unfold Exokernel.modPteOne
  split
  · rename_i he
    rwa [he] at hpde
  rename_i k₁ he
  rw [he] at hpde
  obtain ⟨pte, hpte⟩ := pdeCheckNAlloc_pte he
  simp only [hpte, getD_some]
  cases hp : isPresent pte with
  | false =>
    exact ⟨h.idle none k₁ va pte _ hpde hva hpte hp (isPresent_editPte hp add), mask_clearP hadd⟩
  | true =>
    simp only [Bool.not_true, Bool.false_eq_true, if_false]
    split
    · rename_i hsoft
      simp only [Bool.and_eq_true, Bool.not_eq_true'] at hsoft
      exact ⟨h.soft k₁ va pte add hpde hva hpte hp hadd hsoft.1 hsoft.2, hadd⟩
    · unfold modPresentPte
      dsimp only
      cases hacl : ppageAclCheck k₁.mem (pgno pte) c perm with
      | error e => exact hpde
      | ok u =>
        dsimp only
        cases hc : ppcompatState (k₁.mem.pages (pgno pte)).readers.toNat
            ((k₁.mem.pages (pgno pte)).writers.setWidth 32
              + writersAdj pte (editPte pte add remove)).toNat
            (k₁.mem.pages (pgno pte)).state with
        | false => exact hpde
        | true => exact ⟨h.hard k₁ va pte add hpde hva hpte hp hadd hacl hc, hadd⟩

end KeepsMod

/-! ## 6. `pmap_insert_range` up to its loop

Before it walks, it changes nothing. It ends there, follows a null pointer, or has
passed the checks that the third case lists. -/

section
variable {k k' : Kernel} {cur : Fin nenv} {tgt : Option (BitVec 32 × BitVec 32)}

/-- It gets to its loop, for environment `i` with directory `d`, and with capability `c`. -/
structure InsertRuns (k : Kernel) (cur : Fin nenv) (tgt : Option (BitVec 32 × BitVec 32))
    (kcap total va : BitVec 32) (i : Fin nenv) (c : ClistCap) (d : Fin nenv) : Prop where
  target : targetEnv k cur tgt = .ok i
  range : rangeRejected va total = false
  cap : envGetcap (k.envs cur) kcap = .ok c
  pd : (k.envs i).pd = some d

theorem pmapInsertRange_cases {kcap total va completed done : BitVec 32}
    {ptes : List (BitVec 32)} {userreq : Bool} {r : Ret}
    (h : pmapInsertRange k cur tgt kcap ptes total va completed userreq = (r, done, k')) :
    k' = k ∨ k' = k.halt ∨ ∃ i c d, InsertRuns k cur tgt kcap total va i c d ∧
      pmapInsertLoop d (k.envs i).id c.1 userreq (total.toNat - completed.toNat) ptes va completed
        k = (r, done, k') := by
  unfold pmapInsertRange at h
  split at h
  · cases h
    exact .inl rfl
  rename_i i hi
  split at h
  · cases h
    exact .inl rfl
  rename_i hrej
  split at h
  · cases h
    exact .inl rfl
  rename_i c hc
  split at h
  · cases h
    exact .inr (.inl rfl)
  · rename_i d hd
    exact .inr (.inr ⟨i, c, d, ⟨hi, by simpa using hrej, hc, hd⟩, h⟩)

/-- `sys_insert_pte_range` can return in state `k'`. **If it counts through a pointer into the
    kernel, that may be any state**: `VPT` leads to the page tables, and all of memory is mapped. -/
def InsertRangeLeads (k : Kernel) (cur : Fin nenv) (tgt : Option (BitVec 32 × BitVec 32))
    (kcap : BitVec 32) (ptes : List (BitVec 32)) (num va : BitVec 32) (completed : Counter)
    (k' : Kernel) : Prop :=
  (¬CountsInUser ptes num completed ∧ ∃ i c d, InsertRuns k cur tgt kcap num va i c d) ∨
    (sysInsertPteRange k cur tgt kcap ptes num va completed).2.2 = k'

end

/-! ## 7. Relations that every step respects -/

/-- A preorder on states that holds across each elementary step at addresses in `V`. -/
structure CallFrame (R : Kernel → Kernel → Prop) (V : BitVec 32 → Prop) : Prop where
  trans : ∀ {k k' k''}, R k k' → R k' k'' → R k k''
  same : ∀ k, R k k
  halt : ∀ k, R k k.halt
  reuse : ∀ k p, R k (k.setMem (ppageReuseBuffer k.mem p))
  free : ∀ k p, R k (k.setMem (ppageFree k.mem p))
  map : ∀ (k₀ : Kernel) (d : Fin nenv) (envid : BitVec 32) (c : Cap) (n : Nat),
    KeepsMap (fun _ => R k₀) (R k₀) (fun _ _ => True) (fun _ _ _ => True) d envid V c n
  mod : ∀ (k₀ : Kernel) (d : Fin nenv) (envid : BitVec 32) (c : Cap) (perm : BitVec 3)
    (remove : BitVec 32), KeepsMod (fun _ => R k₀) d envid V c perm remove

namespace CallFrame

variable {R : Kernel → Kernel → Prop} {V : BitVec 32 → Prop}

theorem pmapInsertLoop (h : CallFrame R V) {d : Fin nenv} {envid : BitVec 32} {c : Cap}
    {userreq : Bool} (left : Nat) :
    ∀ {ptes : List (BitVec 32)} {va : BitVec 32} (done : BitVec 32) (k : Kernel),
      (∀ i < min left ptes.length, V (va + 4096 * BitVec.ofNat 32 i)) →
      R k (pmapInsertLoop d envid c userreq left ptes va done k).2.2 := by
  induction left with
  | zero => exact fun _ k _ => h.same k
  | succ left ih =>
    intro ptes va done k hV
    cases ptes with
    | nil => exact h.same k
    | cons pte ptes =>
      have hlen : min (left + 1) (pte :: ptes).length = min left ptes.length + 1 := by
        simp [succ_min_succ]
      have hva : V va := by simpa using hV 0 (by omega)
      have hone : ∀ {r k'}, pmapInsertOne k d envid c va pte userreq = (r, k') → R k k' := by
        intro r k' heq
        rcases (h.map k d envid c (pgno pte)).pmapInsertOne (h.same k) hva heq with ⟨-, h⟩ | ⟨-, h⟩
        · exact h
        · exact h
      unfold Exokernel.pmapInsertLoop
      split
      · rename_i heq
        exact hone heq
      rename_i heq
      refine h.trans (hone heq) (ih _ _ fun i hi => ?_)
      rw [← page_succ]
      exact hV (i + 1) (by omega)

theorem modPteLoop (h : CallFrame R V) {d : Fin nenv} {c : Cap} {perm : BitVec 3}
    {remove : BitVec 32} (num : Nat) :
    ∀ {va add : BitVec 32} (k : Kernel), add &&& pgMask = add →
      (∀ i < num, V (va + 4096 * BitVec.ofNat 32 i)) →
      R k (modPteLoop d c perm remove num va add k).2 := by
  induction num with
  | zero => exact fun k _ _ => h.same k
  | succ num ih =>
    intro va add k hadd hV
    have hva : V va := by simpa using hV 0 (by omega)
    have hone := (h.mod k d 0 c perm remove).modPteOne (h.same k) hva hadd
    unfold Exokernel.modPteLoop
    split
    · rename_i he
      rwa [he] at hone
    rename_i he
    rw [he] at hone
    refine h.trans hone.1 (ih _ hone.2 fun i hi => ?_)
    rw [← page_succ]
    exact hV (i + 1) (by omega)

theorem bufferMapPage (h : CallFrame R V) (k : Kernel) {d : Fin nenv} {envid va pte : BitVec 32}
    {p : Nat} (hva : V va) (hp : isPresent pte = true) :
    R k (bufferMapPage k d envid p va pte).2 := by
  unfold Exokernel.bufferMapPage
  dsimp only
  have hreuse : R k (if (k.mem.pages p).status = .free then
      k.setMem (ppageReuseBuffer k.mem p) else k) := by
    split
    · exact h.reuse k p
    · exact h.same k
  have hperm := (isPresent_mask pte).trans hp
  have hmask : pte &&& pgMask &&& pgMask = pte &&& pgMask := by
    rw [BitVec.and_assoc, BitVec.and_self]
  have hins := (h.map k d envid Cap.null 0).ppageInsert (p := p) hreuse hva trivial hperm hmask
  split
  · rename_i he
    rw [he] at hins
    refine h.trans hins.1 ?_
    split
    · exact h.free _ p
    · exact h.same _
  · rename_i he
    rwa [he] at hins

end CallFrame

end Exokernel
