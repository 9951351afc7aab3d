import Exokernel.Lib.Tally
import Exokernel.Kern.Boot
import Exokernel.Proof.Walk

/-!
# Access lists and mapping — when is a page mapped only through its own list

`pmap_insert_range` asks a page's access list before it maps the page, **unless nobody has the
page**: a page taken off a free list gets a list made from the caller's capability. That is
sound as long as the pages the call finds free were free when it began. But
`pmap_insert_common` removes the old mapping of an address before anything about the new one
is checked, and a page that loses its last mapping that way is free when it is asked for.

`InsertCall.Spares` says when that cannot happen to a page: the call is refused, or asks neither for
it nor for any page, or takes away fewer of the page's mappings than there are. The invariant
behind it is a count: of the entries the call may still change, fewer name the page than the
page has mappings.
-/
set_option autoImplicit false

namespace Exokernel

open Function List Bool Nat

open Tally

/-! ## 1. The entries of one directory -/

/-- A place in a directory: table and entry. -/
abbrev Slot := Fin nlpg × Fin nlpg

def slotOf (va : BitVec 32) : Slot := (pdeno va, pteno va)

theorem slotOf_pgTrunc (va : BitVec 32) : slotOf (pgTrunc va) = slotOf va := by
  refine Prod.ext (Fin.ext ?_) (Fin.ext ?_)
  · show (pgTrunc va).toNat / 2 ^ 22 = va.toNat / 2 ^ 22
    rw [toNat_pgTrunc]
    omega
  show (pgTrunc va).toNat / 2 ^ 12 % 1024 = va.toNat / 2 ^ 12 % 1024
  rw [toNat_pgTrunc]
  omega

/-- The entry at a place, in the directory's own table or in the kernel's. -/
def Kernel.slot (k : Kernel) (d : Fin nenv) (s : Slot) : Option (BitVec 32) :=
  (k.table d s.1).map fun t => t.pte s.2

section
variable {k : Kernel} {d : Fin nenv} {va : BitVec 32}

theorem Kernel.pte_eq_slot : k.pte d va = k.slot d (slotOf va) := rfl

theorem Kernel.setPte_table (x : BitVec 32) (i : Fin nlpg) :
    (k.setPte d va x).table d i =
      if i = pdeno va then (k.table d i).map (·.set (pteno va) x) else k.table d i := by
  cases hpd : k.pds d with
  | none => simp [setPte, table, hpd]
  | some pd =>
    by_cases hi : i = pdeno va
    · subst hi
      cases hown : pd.pt (pdeno va) with
      | some t => simp [setPte, table, hpd, hown, setPd]
      | none => by_cases hk : kernPde (pdeno va) = true <;> simp [setPte, table, hpd, hown, hk]
    · cases hown : pd.pt (pdeno va) with
      | some t => simp [setPte, table, hpd, hown, setPd, hi]
      | none => by_cases hk : kernPde (pdeno va) = true <;> simp [setPte, table, hpd, hown, hk, hi]

theorem Kernel.setPte_slot (x : BitVec 32) (s : Slot) :
    (k.setPte d va x).slot d s =
      if s = slotOf va then (k.slot d s).map fun _ => x else k.slot d s := by
  obtain ⟨i, j⟩ := s
  simp only [slot, setPte_table, slotOf, Prod.mk.injEq]
  by_cases hi : i = pdeno va
  · by_cases hj : j = pteno va
    · simp [hi, hj, PageTable.set, Function.comp_def]
    · simp [hi, hj, PageTable.set, Function.comp_def]
  · simp [hi]

theorem Kernel.modNptes_slot (i : Fin nlpg) (f : BitVec 16 → BitVec 16) (s : Slot) :
    (k.modNptes d i f).slot d s = k.slot d s := by
  simp only [slot, table, modNptes, modPd, setPd, update_self]
  cases k.pds d with
  | none => rfl
  | some pd => rfl

theorem Kernel.setTable_slot {i : Fin nlpg} {p : Nat} (hpd : (k.pds d).isSome = true) (s : Slot) :
    (k.setTable d i (some ⟨p, fun _ => 0⟩)).slot d s = if s.1 = i then some 0 else k.slot d s := by
  obtain ⟨pd, hpd⟩ := Option.isSome_iff_exists.mp hpd
  by_cases hi : s.1 = i
  · simp [slot, table, setTable, modPd, setPd, hpd, hi]
  · simp [slot, table, setTable, modPd, setPd, hpd, hi]

/-- The entry is present and names page `P`. -/
def names (P : Nat) (x : Option (BitVec 32)) : Bool :=
  x.any fun x => isPresent x && decide (pgno x = P)

/-- How many of the places in `T` name page `P`. -/
def mapped (P : Nat) (d : Fin nenv) (T : Slot → Bool) (k : Kernel) : Nat :=
  tally fun s => T s && names P (k.slot d s)

variable {P : Nat} {T : Slot → Bool}

theorem mapped_congr {k' : Kernel} (h : ∀ s, names P (k'.slot d s) = names P (k.slot d s)) :
    mapped P d T k' = mapped P d T k :=
  tally_congr fun s => by rw [h s]

theorem names_of_absent {x : BitVec 32} (h : isPresent x = false) : names P (some x) = false := by
  simp [names, h]

/-- Writing over an entry counts for `P` what the new one does, less what the old one did. -/
theorem mapped_setPte {old x : BitVec 32} (hold : k.pte d va = some old)
    (hT : T (slotOf va) = true) :
    mapped P d T (k.setPte d va x) + (if names P (some old) then 1 else 0) =
      mapped P d T k + (if names P (some x) then 1 else 0) := by
  have hslot : k.slot d (slotOf va) = some old := hold
  have hnew : (k.setPte d va x).slot d (slotOf va) = some x := by
    rw [Kernel.setPte_slot, if_pos rfl, hslot]
    rfl
  have hoff : ∀ s, s ≠ slotOf va → (k.setPte d va x).slot d s = k.slot d s :=
    fun s hs => by rw [Kernel.setPte_slot, if_neg hs]
  have hchange := tally_change (p := fun s => T s && names P (k.slot d s)) fun s hs =>
    show (T s && names P ((k.setPte d va x).slot d s)) = _ by rw [hoff s hs]
  simpa only [hT, hslot, hnew, Bool.true_and, Bool.toNat, cond_eq_ite, mapped] using hchange

end

/-! ## 2. Steps that do not concern a page -/

/-- Between `m` and `m'` page `P` was neither taken nor given back. Its buffer may have gone:
    a header on another page can claim to be on this one. -/
structure Apart (P : Nat) (m m' : Mem) : Prop where
  nppage : m'.nppage = m.nppage
  page : ∃ b, m'.pages P = { m.pages P with buf := b }
  lists : ∀ q, q ∈ m'.freeList ∨ q ∈ m'.freeBufs →
    (q ∈ m.freeList ∨ q ∈ m.freeBufs) ∨ q < m.nppage ∧ q ≠ P

/-- The free lists hold numbers of pages other than `P`. -/
def OffLists (P : Nat) (m : Mem) : Prop :=
  ∀ q, q ∈ m.freeList ∨ q ∈ m.freeBufs → q < m.nppage ∧ q ≠ P

section
variable {P q : Nat} {m m' m'' : Mem}

theorem OffLists.apart (h : OffLists P m) (ha : Apart P m m') : OffLists P m' := by
  intro q hq
  rw [ha.nppage]
  rcases ha.lists q hq with hq | hq
  · exact h q hq
  · exact hq

namespace Apart

theorem trans (h : Apart P m m') (h' : Apart P m' m'') : Apart P m m'' where
  nppage := h'.nppage.trans h.nppage
  page := by
    obtain ⟨b, hb⟩ := h.page
    obtain ⟨b', hb'⟩ := h'.page
    exact ⟨b', by rw [hb', hb]⟩
  lists q hq := by
    rcases h'.lists q hq with hq | hq
    · exact h.lists q hq
    · exact .inr (h.nppage ▸ hq)

/-- The pages are what they were, and the lists lost some. -/
theorem ofSub (hn : m'.nppage = m.nppage) (hp : m'.pages P = m.pages P)
    (hl : m'.freeList ⊆ m.freeList) (hb : m'.freeBufs ⊆ m.freeBufs) : Apart P m m' :=
  ⟨hn, ⟨_, hp⟩, fun _ hq => .inl (hq.imp (fun h => hl h) (fun h => hb h))⟩

theorem refl (m : Mem) : Apart P m m :=
  ofSub rfl rfl (List.Subset.refl _) (List.Subset.refl _)

theorem modPage (m : Mem) (hq : q ≠ P) (f : Ppage → Ppage) : Apart P m (m.modPage q f) :=
  ofSub rfl (update_of_ne hq.symm _ _) (List.Subset.refl _) (List.Subset.refl _)

theorem bcRemove (m : Mem) (b : Nat) : Apart P m (bcRemove m b) := by
  obtain ⟨_, heq⟩ := bcRemove_shape m b
  rw [heq]
  refine ⟨rfl, ?_, fun q hq => .inl hq⟩
  by_cases hp : P = (m.bufs b).ppn
  · exact ⟨none, by simp [hp]⟩
  · exact ⟨(m.pages P).buf, by simp [update_of_ne hp]⟩

theorem reclaimPage (m : Mem) (hq : q ≠ P) (t : PpStatus) : Apart P m (ppageReclaimPage m q t) :=
  ofSub rfl (update_of_ne hq.symm _ _) List.erase_subset (List.Subset.refl _)

theorem reclaimBuffer (m : Mem) (hq : q ≠ P) (t : PpStatus) :
    Apart P m (ppageReclaimBuffer m q t) := by
  cases hb : (m.pages q).buf with
  | none =>
    simp only [ppageReclaimBuffer, hb]
    exact ofSub rfl rfl (List.Subset.refl _) (List.Subset.refl _)
  | some b =>
    obtain ⟨n, -, heq⟩ := ppageReclaimBuffer_remove t hb
    rw [heq]
    refine trans ?_ ((bcRemove _ b).trans (modPage _ hq _))
    exact ofSub rfl rfl (List.Subset.refl _) erase_subset

theorem reclaim (m : Mem) (hq : q ≠ P) (t : PpStatus) : Apart P m (ppageReclaim m q t) := by
  unfold ppageReclaim
  split
  · exact reclaimBuffer m hq t
  · exact reclaimPage m hq t

theorem free (m : Mem) (hq : q ≠ P) (hlt : q < m.nppage) : Apart P m (ppageFree m q) := by
  by_cases hr : (m.pages q).refcnt = 0
  · rw [ppageFree_eq hr]
    refine ⟨rfl, ⟨_, update_of_ne hq.symm _ _⟩, fun r hr => ?_⟩
    have hmem : (r ∈ m.freeList ∨ r ∈ m.freeBufs) ∨ r = q := by grind
    exact hmem.imp_right fun (h : r = q) => h ▸ ⟨hlt, hq⟩
  · rw [ppageFree_mapped hr]
    exact refl m

end Apart

theorem ppageFree_kept {n : Nat} (hr : (m.pages P).refcnt = BitVec.ofNat 16 n) (hpos : 0 < n)
    (hlt : n < 2 ^ 16) : ppageFree m P = m := by
  refine ppageFree_mapped fun h0 => ?_
  rw [hr] at h0
  have hzero : n % 2 ^ 16 = 0 := congrArg BitVec.toNat h0
  omega

theorem OffLists.alloc (h : OffLists P m) {t : PpStatus} {u : Bool}
    (halloc : ppageAlloc m t u = (.ok q, m')) : Apart P m m' ∧ q < m.nppage ∧ q ≠ P := by
  rcases ppageAlloc_cases halloc with ⟨e, he, -⟩ | ⟨p, hp, hfind, rfl⟩
  · cases he
  obtain rfl := Except.ok.inj hp
  obtain ⟨hlt, hne⟩ := h q ((ppageFindFree_cases hfind).imp And.left And.left)
  exact ⟨.reclaim m hne t, hlt, hne⟩

theorem OffLists.kmalloc (h : OffLists P m) : Apart P m (kmalloc m).2 := by
  have hev : ∀ f, Apart P m { m with mallocs := f } :=
    fun _ => .ofSub rfl rfl (List.Subset.refl _) (List.Subset.refl _)
  obtain ⟨f, he | ⟨q, hfind, he⟩⟩ := kmalloc_cases (m := m) Prod.mk.eta.symm
  · exact he ▸ hev f
  · have hne := (h q ((ppageFindFree_cases hfind).imp And.left And.left)).2
    exact he ▸ (hev f).trans (.reclaim _ hne _)

end

/-! ## 3. A page that keeps a mapping -/

/-- The access `pmap_insert_range` asks for. -/
def Passes (c : Cap) (acl : List AclEntry) (w : Bool) : Prop :=
  aclAccess c acl (if w then aclW else 0) = .ok ()

/-- The mapping that is being made counts as one of page `P`, or not. -/
def pend (P : Nat) : Option Pending → Nat
  | none => 0
  | some a => if a.page = P then 1 else 0

/-- Page `P` is in use and will stay so: of the entries in `T`, the ones the call may write,
    fewer name it than it has mappings. `need` of its mappings are still to be made in this
    round, and `room` is how many it may have then. The access list is the one it had in `k₀`. -/
structure Holding (k₀ : Kernel) (P : Nat) (d : Fin nenv) (c : Cap) (T : Slot → Bool)
    (need room : Nat) (a : Option Pending) (k : Kernel) : Prop where
  off : OffLists P k.mem
  lt : P < k.mem.nppage
  inUse : (k.mem.pages P).status ≠ .free
  acl : (k.mem.pages P).acl = (k₀.mem.pages P).acl
  count : ∃ n, (k.mem.pages P).refcnt = BitVec.ofNat 16 n ∧ mapped P d T k + pend P a < n ∧
    n + need ≤ room + pend P a
  still : ∀ s x, T s = false → k₀.slot d s = some x → k.slot d s = some x
  pending : ∀ x ∈ a, x.page < k.mem.nppage ∧
    (x.page = P → need = 1 ∧ Passes c (k₀.mem.pages P).acl x.writable)

namespace Holding

variable {k₀ k k' : Kernel} {P : Nat} {d : Fin nenv} {c : Cap} {T : Slot → Bool}
  {need room : Nat} {a : Option Pending} {va : BitVec 32}

/-- Nothing happened to `P`, and the entries are what they were; where there was no table there
    may be one, with empty entries. -/
theorem apart (h : Holding k₀ P d c T need room a k) (ha : Apart P k.mem k'.mem)
    (hs : ∀ s, k'.slot d s = k.slot d s ∨ k.slot d s = none ∧ k'.slot d s = some 0) :
    Holding k₀ P d c T need room a k' := by
  obtain ⟨b, hb⟩ := ha.page
  obtain ⟨n, href, hlt, hle⟩ := h.count
  have hmapped : mapped P d T k' = mapped P d T k := mapped_congr fun s => by
    rcases hs s with hs | ⟨hnone, hzero⟩
    · rw [hs]
    · rw [hnone, hzero]
      rfl
  refine ⟨h.off.apart ha, ha.nppage ▸ h.lt, by rw [hb]; exact h.inUse, by rw [hb]; exact h.acl,
    ⟨n, by rw [hb]; exact href, by rw [hmapped]; exact hlt, hle⟩, ?_, ?_⟩
  · intro s x hT hx
    have hk := h.still s x hT hx
    rcases hs s with hs | ⟨hnone, -⟩
    · rw [hs, hk]
    · rw [hnone] at hk
      cases hk
  · rw [ha.nppage]
    exact h.pending

variable {m : Mem} {n p : Nat} {old : BitVec 32} {v : Vpage} {w : Bool}

section

variable (h : Holding k₀ P d c T need room a k)
include h

theorem setMem (ha : Apart P k.mem m) :
    Holding k₀ P d c T need room a (k.setMem m) :=
  h.apart ha fun _ => .inl rfl

/-- The mappings of page `p` are counted again; page `P` has `n` mappings now. -/
theorem recount {a' : Option Pending} {f : Ppage → Ppage}
    (hf : ∀ x, (f x).status = x.status ∧ (f x).acl = x.acl)
    (href : (if p = P then f (k.mem.pages P) else k.mem.pages P).refcnt = BitVec.ofNat 16 n)
    (hlt : mapped P d T k + pend P a' < n) (hle : n + need ≤ room + pend P a')
    (hpend : ∀ y ∈ a', y.page < k.mem.nppage ∧
      (y.page = P → need = 1 ∧ Passes c (k₀.mem.pages P).acl y.writable)) :
    Holding k₀ P d c T need room a' (k.modPage p f) := by
  have hpage : (k.modPage p f).mem.pages P =
      if p = P then f (k.mem.pages P) else k.mem.pages P := by
    by_cases hP : p = P
    · subst hP
      simp [Kernel.modPage_mem, Mem.modPage]
    · rw [if_neg hP]
      exact update_of_ne (Ne.symm hP) _ _
  have hkept : ((k.modPage p f).mem.pages P).status = (k.mem.pages P).status ∧
      ((k.modPage p f).mem.pages P).acl = (k.mem.pages P).acl := by
    rw [hpage]
    split
    · exact hf _
    · exact ⟨rfl, rfl⟩
  exact ⟨h.off, h.lt, hkept.1 ▸ h.inUse, hkept.2.trans h.acl, ⟨n, hpage ▸ href, hlt, hle⟩, h.still,
    hpend⟩

/-- An entry that the call may write changes, and page `P` with it. `n` is the number of its
    mappings afterwards. -/
theorem write {a' : Option Pending} {need' : Nat}
    {x : BitVec 32} (hold : k.pte d va = some old)
    (hT : T (slotOf va) = true) (hoff : OffLists P m) (hn : m.nppage = k.mem.nppage)
    (hin : (m.pages P).status ≠ .free) (hacl : (m.pages P).acl = (k.mem.pages P).acl)
    (href : (m.pages P).refcnt = BitVec.ofNat 16 n)
    (hlt : mapped P d T k + (if names P (some x) then 1 else 0) + pend P a' <
      n + (if names P (some old) then 1 else 0))
    (hle : n + need' ≤ room + pend P a')
    (hpend : ∀ y ∈ a', y.page < k.mem.nppage ∧
      (y.page = P → need' = 1 ∧ Passes c (k₀.mem.pages P).acl y.writable)) :
    Holding k₀ P d c T need' room a' ((k.setMem m).setPte d va x) := by
  have hmem : ((k.setMem m).setPte d va x).mem = m := Kernel.setPte_mem _ _ _ _
  have hcount : mapped P d T ((k.setMem m).setPte d va x) + (if names P (some old) then 1 else 0) =
      mapped P d T k + (if names P (some x) then 1 else 0) := by
    have hsame : mapped P d T (k.setMem m) = mapped P d T k := mapped_congr fun _ => rfl
    rw [← hsame]
    exact mapped_setPte hold hT
  refine ⟨hmem.symm ▸ hoff, by rw [hmem, hn]; exact h.lt, by rw [hmem]; exact hin,
    by rw [hmem, hacl]; exact h.acl, ⟨n, by rw [hmem]; exact href, by omega, hle⟩, ?_, ?_⟩
  · intro s y hs hy
    rw [Kernel.setPte_slot, if_neg]
    · exact h.still s y hs hy
    · rintro rfl
      exact absurd hT (by rw [hs]; decide)
  · rw [hmem, hn]
    exact hpend

/-- An entry that has nothing to do with `P` is replaced by another. -/
theorem other {x : BitVec 32}
    (hold : k.pte d va = some old) (hT : T (slotOf va) = true) (ho : names P (some old) = false)
    (hx : names P (some x) = false) : Holding k₀ P d c T need room a (k.setPte d va x) := by
  obtain ⟨n, href, hlt, hle⟩ := h.count
  exact h.write (m := k.mem) hold hT h.off rfl h.inUse rfl href (by simpa [ho, hx] using hlt) hle
    h.pending

theorem pend_le : pend P a ≤ need := by
  cases a with
  | none => exact zero_le _
  | some x =>
    simp only [pend]
    split
    · rename_i hx
      rw [((h.pending x rfl).2 hx).1]
    · exact zero_le _

end

/-- An entry of `P` that the call may write is one of those that count. -/
theorem mapped_pos (hold : k.pte d va = some old) (hT : T (slotOf va) = true)
    (hp : names P (some old) = true) : 0 < mapped P d T k := by
  refine tally_pos (i := slotOf va) ?_
  rw [hT, ← Kernel.pte_eq_slot, hold, hp]
  rfl

/-- **A mapping is removed.** If it is one of `P`, another one is left. -/
theorem unmap (h : Holding k₀ P d c T need room a k) (hroom : room ≤ 2 ^ 16)
    {envid : BitVec 32} (hold : k.pte d va = some old) (hT : T (slotOf va) = true)
    (hp : isPresent old = true) (hlt : pgno old < k.mem.nppage) :
    Holding k₀ P d c T need room a (ppageRemove k d envid va) := by
  have h₁ : Holding k₀ P d c T need room a (k.modNptes d (pdeno va) (· - 1)) :=
    h.apart (Apart.refl _) fun s => .inl (Kernel.modNptes_slot _ _ s)
  have hold₁ : (k.modNptes d (pdeno va) (· - 1)).pte d va = some old :=
    (Kernel.modNptes_pte _ _).trans hold
  rw [ppageRemove_eq hold hp hlt]
  by_cases hP : pgno old = P
  · have hnames : names P (some old) = true := by simp [names, hp, hP]
    obtain ⟨n, href, hcount, hle⟩ := h₁.count
    have hpos := mapped_pos hold₁ hT hnames
    have hpend := h.pend_le
    rw [hP]
    let f : Ppage → Ppage := (·.dropVpage ⟨envid, pgTrunc va⟩ (isWritable old))
    have hpage : (k.mem.modPage P f).pages P = f (k.mem.pages P) := update_self _ _ _
    have href' : (f (k.mem.pages P)).refcnt = BitVec.ofNat 16 (n - 1) := by
      show (k.mem.pages P).refcnt - 1 = _
      rw [show (k.mem.pages P).refcnt = _ from href]
      obtain ⟨l, rfl⟩ : ∃ l, n = l + 1 := exists_eq_add_one.mpr (by omega)
      simp [BitVec.ofNat_add]
    have hfree : ppageFree (k.mem.modPage P f) P = k.mem.modPage P f :=
      ppageFree_kept (hpage ▸ href') (by omega) (by omega)
    have hin : ((k.mem.modPage P f).pages P).status ≠ .free := by
      rw [hpage]
      exact h.inUse
    have hacl : ((k.mem.modPage P f).pages P).acl = (k.mem.pages P).acl := by
      rw [hpage]
      rfl
    rw [hfree]
    refine h₁.write hold₁ hT h.off rfl hin hacl (hpage ▸ href') ?_ (by omega) h.pending
    rw [hnames, names_of_absent (show isPresent 0 = false from rfl)]
    simp only [false_eq_true, if_false, if_true]
    omega
  · have hapart : Apart P k.mem (ppageFree (k.mem.modPage (pgno old)
        (·.dropVpage ⟨envid, pgTrunc va⟩ (isWritable old))) (pgno old)) :=
      (Apart.modPage k.mem hP _).trans (.free _ hP hlt)
    have hnames : names P (some old) = false := by simp [names, hP]
    exact (h₁.setMem hapart).other hold₁ hT hnames rfl

/-! ### The elementary steps -/

/-- What is to be said of a page that is to be mapped, where `n` is asked for. -/
def May (k₀ : Kernel) (P : Nat) (c : Cap) (n : Nat) (k : Kernel) (p : Nat) (w : Bool) : Prop :=
  p < k.mem.nppage ∧ (p = P → n = P ∧ Passes c (k₀.mem.pages P).acl w)

theorem keeps (hroom : room ≤ 2 ^ 16) {va₀ : BitVec 32} (hT : T (slotOf va₀) = true)
    (envid : BitVec 32) :
    Keeps (Holding k₀ P d c T need room) d envid (fun va => slotOf va = slotOf va₀) where
  trunc va hva := (slotOf_pgTrunc va).trans hva
  halt _ _ h := h.apart (Apart.refl _) fun _ => .inl rfl
  table a k va p m h hva hpd hnone halloc := by
    have h₁ := h.setMem (h.off.alloc halloc).1
    refine h₁.apart (Apart.refl _) fun s => ?_
    have hpd' : ((k.setMem m).pds d).isSome = true := hpd
    rw [Kernel.setTable_slot hpd']
    split
    · rename_i hs
      refine .inr ⟨?_, rfl⟩
      show (k.table d s.1).map _ = none
      rw [hs, hnone]
      rfl
    · exact .inl rfl
  unmap a k va pte h hva hpte hp hlt := h.unmap hroom hpte (hva ▸ hT) hp hlt
  idle a k va old pte h hva hold ho hp :=
    h.other hold (hva ▸ hT) (names_of_absent ho) (names_of_absent hp)
  bogus a k va pte h hva hpte hp hle := by
    have hne : pgno pte ≠ P := fun hP => absurd h.lt (not_lt.mpr (hP ▸ hle))
    exact h.other hpte (hva ▸ hT) (by simp [names, hne]) rfl

/-- The record of a mapping is made before the mapping. -/
theorem add (h : Holding k₀ P d c T need room none k)
    (hneed : need = if n = P then 1 else 0) (hmay : May k₀ P c n k p w) :
    Holding k₀ P d c T need room (some ⟨p, v, w⟩) (k.modPage p (·.addVpage v w)) := by
  obtain ⟨l, href, hlt, hle⟩ := h.count
  have hnone : pend P none = 0 := rfl
  refine h.recount (n := l + pend P (some ⟨p, v, w⟩)) (fun _ => ⟨rfl, rfl⟩) ?_ (by omega)
    (by omega) ?_
  · split
    · rename_i hP
      simp [Ppage.addVpage, href, pend, hP, BitVec.ofNat_add]
    · rename_i hP
      simp [href, pend, hP]
  rintro x ⟨⟩
  refine ⟨hmay.1, fun hP => ⟨?_, (hmay.2 hP).2⟩⟩
  rw [hneed, if_pos (hmay.2 hP).1]

/-- The record is taken back. -/
theorem undo (h : Holding k₀ P d c T need room (some ⟨p, v, w⟩) k) :
    Holding k₀ P d c T need room none (k.modPage p (·.dropVpage v w)) := by
  obtain ⟨l, href, hlt, hle⟩ := h.count
  have hnone : pend P none = 0 := rfl
  refine h.recount (n := l - pend P (some ⟨p, v, w⟩)) (fun _ => ⟨rfl, rfl⟩) ?_ (by omega)
    (by omega) fun _ hx => nomatch hx
  split
  · rename_i hP
    obtain ⟨l, rfl⟩ : ∃ l', l = l' + 1 := exists_eq_add_one.mpr (by omega)
    simp [Ppage.dropVpage, href, pend, hP, BitVec.ofNat_add]
  · rename_i hP
    simp [href, pend, hP]

/-- The mapping is made, and if it is one of `P` the list of `P` was asked. -/
theorem finish {perm : BitVec 32}
    (h : Holding k₀ P d c T need room (some ⟨p, v, isWritable perm⟩) k)
    (hT : T (slotOf va) = true) (hold : k.pte d va = some old) (ho : isPresent old = false)
    (hp : isPresent perm = true) (hmask : perm &&& pgMask = perm) {k' : Kernel}
    (hk' : k' = (k.setPte d va (pp2pa p ||| perm)).modNptes d (pdeno va) (· + 1)) :
    Holding k₀ P d c T 0 room none k' ∧ ∀ x, k'.pte d va = some x → pgno x = P →
      Passes c (k₀.mem.pages P).acl (isWritable x) := by
  subst hk'
  obtain ⟨l, href, hlt, hle⟩ := h.count
  obtain ⟨hlt', hpass⟩ := h.pending _ rfl
  have hpend := h.pend_le
  have hnone : pend P none = 0 := rfl
  have hpgno : pgno (pp2pa p ||| perm) = p :=
    pgno_pp2pa ((hlt'.trans_le k.mem.nppage_le).trans_le (by decide)) hmask
  have hnames : (if names P (some (pp2pa p ||| perm)) then 1 else 0) =
      pend P (some ⟨p, v, isWritable perm⟩) := by
    simp [names, isPresent_pp2pa, hp, hpgno, pend]
  constructor
  · refine Holding.apart (k := k.setPte d va (pp2pa p ||| perm)) ?_ (Apart.refl _)
      fun s => .inl (Kernel.modNptes_slot _ _ s)
    refine h.write (m := k.mem) hold hT h.off rfl h.inUse rfl href ?_ (by omega)
      fun _ hx => nomatch hx
    rw [hnames, names_of_absent ho]
    simp only [false_eq_true, if_false]
    omega
  · intro x hx hP
    rw [Kernel.modNptes_pte, Kernel.setPte_pte_self hold] at hx
    cases hx
    rw [isWritable_pp2pa]
    exact (hpass (hpgno.symm.trans hP)).2

/-- A page that nobody wants after all is given back. `P` still has mappings, so it stays. -/
theorem giveBack
    (h : Holding k₀ P d c T (if n = P then 1 else 0) room none k) (hroom : room ≤ 2 ^ 16)
    (hmay : May k₀ P c n k p w) :
    Holding k₀ P d c T (if n = P then 1 else 0) room none (k.setMem (ppageFree k.mem p)) := by
  by_cases hP : p = P
  · subst hP
    obtain ⟨l, href, hlt, hle⟩ := h.count
    rw [if_pos (hmay.2 rfl).1] at hle
    have hnone : pend p none = 0 := rfl
    have hfree : ppageFree k.mem p = k.mem := ppageFree_kept href (by omega) (by omega)
    rw [hfree]
    exact h
  · exact h.setMem (.free _ hP hmay.1)

theorem keepsMap (hroom : room ≤ 2 ^ 16) {va₀ : BitVec 32} (hT : T (slotOf va₀) = true)
    (envid : BitVec 32) (n : Nat) :
    KeepsMap (Holding k₀ P d c T (if n = P then 1 else 0) room)
      (fun k' => Holding k₀ P d c T 0 room none k' ∧ ∀ x, k'.pte d va₀ = some x → pgno x = P →
        Passes c (k₀.mem.pages P).acl (isWritable x))
      (fun k p => p < k.mem.nppage ∧ p ≠ P) (May k₀ P c n) d envid
      (fun va => slotOf va = slotOf va₀) c n where
  toKeeps := keeps hroom hT envid
  malloc k p w h hmay := by
    have ha := h.off.kmalloc
    exact ⟨h.setMem ha, ha.nppage.symm ▸ hmay.1, hmay.2⟩
  reclaim k h _ hlt _ hfree _ := by
    have hne : n ≠ P := fun hn => h.inUse (hn ▸ hfree)
    exact ⟨h.setMem (.reclaimPage k.mem hne .user), hlt, hne⟩
  alloc k p m _ h _ halloc := by
    obtain ⟨ha, hlt, hne⟩ := h.off.alloc halloc
    exact ⟨h.setMem ha, ha.nppage.symm ▸ hlt, hne⟩
  guard k p acl w h hnew _ :=
    ⟨h.setMem (.modPage k.mem hnew.2 _), hnew.1, fun hP => absurd hP hnew.2⟩
  unguard k p acl h hnew :=
    (h.setMem (Apart.modPage k.mem hnew.2 ({ · with acl := acl }))).setMem (.free _ hnew.2 hnew.1)
  check k w h _ hlt _ _ hacl _ := by
    refine ⟨hlt, fun hP => ⟨hP, ?_⟩⟩
    rw [Passes, ← h.acl, ← hP]
    exact hacl
  add k va p w h _ _ hmay := h.add rfl hmay
  undo k va p w h := by
    obtain ⟨hlt, hpass⟩ := h.pending _ rfl
    refine ⟨h.undo, hlt, fun hP => ⟨?_, (hpass hP).2⟩⟩
    by_contra hn
    have := (hpass hP).1
    rw [if_neg hn] at this
    cases this
  finish k va p perm old h hva _ hold ho hp hmask := by
    have hslot : ∀ k' : Kernel, k'.pte d va₀ = k'.pte d va := fun k' => by
      rw [Kernel.pte_eq_slot, Kernel.pte_eq_slot, hva]
    simp only [hslot]
    exact h.finish (hva ▸ hT) hold ho hp hmask rfl
  giveBack k p w h hmay := h.giveBack hroom hmay

end Holding

/-! ## 4. The calls -/

/-- `sys_insert_pte` and `sys_insert_pte_range`, with their arguments. -/
inductive InsertCall where
  | one (tgt : Option (BitVec 32 × BitVec 32)) (kcap pte va : BitVec 32)
  | range (tgt : Option (BitVec 32 × BitVec 32)) (kcap : BitVec 32) (ptes : List (BitVec 32))
      (num va : BitVec 32) (completed : Counter)

namespace InsertCall

def Leads (k : Kernel) (cur : Fin nenv) (k' : Kernel) : InsertCall → Prop
  | one tgt kcap pte va => (sysInsertPte k cur tgt kcap pte va).2 = k'
  | range tgt kcap ptes num va completed =>
    InsertRangeLeads k cur tgt kcap ptes num va completed k'

/-- What the call counts, it counts in user memory. -/
def Counts : InsertCall → Prop
  | one .. => True
  | range _ _ ptes num _ completed => CountsInUser ptes num completed

def tgt : InsertCall → Option (BitVec 32 × BitVec 32)
  | one tgt .. => tgt
  | range tgt .. => tgt

def kcap : InsertCall → BitVec 32
  | one _ kcap .. => kcap
  | range _ kcap .. => kcap

def num : InsertCall → BitVec 32
  | one .. => 1
  | range _ _ _ num .. => num

def start : InsertCall → BitVec 32
  | one _ _ _ va => va
  | range _ _ _ _ va _ => va

/-- The entries the call asks for, in the order of its rounds. -/
def asked : InsertCall → List (BitVec 32)
  | one _ _ pte _ => [pte]
  | range _ _ ptes num _ completed => ptes.take (num.toNat - completed.word.toNat)

/-- The call is not refused before its first round. -/
def Runs (call : InsertCall) (k : Kernel) (cur i : Fin nenv) (c : ClistCap) (d : Fin nenv) : Prop :=
  InsertRuns k cur call.tgt call.kcap call.num call.start i c d

end InsertCall

def asksOf (P : Nat) (ptes : List (BitVec 32)) : Nat :=
  ptes.countP fun pte => isPresent pte && decide (pgno pte = P)

namespace InsertCall

/-- How often the call asks for page `P`; page 0 stands for any page. -/
def asks (call : InsertCall) (P : Nat) : Nat := asksOf P call.asked

end InsertCall

/-! ## 5. Rounds -/

section
variable {k₀ k k' : Kernel} {P : Nat} {d : Fin nenv} {c : Cap} {T : Slot → Bool}
  {envid va pte : BitVec 32} {rest : List (BitVec 32)} {r : Except Errno Bool} {userreq : Bool}

theorem asksOf_cons (P : Nat) (pte : BitVec 32) (rest : List (BitVec 32)) :
    asksOf P (pte :: rest) =
      asksOf P rest + if isPresent pte = true ∧ pgno pte = P then 1 else 0 := by
  simp [asksOf, countP_cons]

/-- **One round** with `rest` to come after it. -/
theorem Holding.round
    (h : Holding k₀ P d c T 0 (2 ^ 16 - asksOf P (pte :: rest)) none k)
    (hslot : T (slotOf va) = true ∨ k₀.slot d (slotOf va) = some pte)
    (heq : pmapInsertOne k d envid c va pte userreq = (r, k')) :
    Holding k₀ P d c T 0 (2 ^ 16 - asksOf P rest) none k' ∧
      (r = .ok true → ∀ x, k'.pte d va = some x → pgno x = P →
        Passes c (k₀.mem.pages P).acl (isWritable x)) := by
  obtain ⟨n, href, hlt, hle⟩ := h.count
  have hnone : pend P none = 0 := rfl
  rw [asksOf_cons] at hle
  have hfits : ∀ need, need ≤ (if isPresent pte = true ∧ pgno pte = P then 1 else 0) →
      Holding k₀ P d c T need (2 ^ 16 - asksOf P rest) none k := fun need hneed =>
    ⟨h.off, h.lt, h.inUse, h.acl, ⟨n, href, hlt, by omega⟩, h.still, fun _ hx => nomatch hx⟩
  have hroom : 2 ^ 16 - asksOf P rest ≤ 2 ^ 16 := sub_le _ _
  cases hT : T (slotOf va) with
  | false =>
    -- the entry has been what is asked for all along
    have hpte : k.pte d va = some pte := h.still _ _ hT (hslot.resolve_left (by simp [hT]))
    have hk := hfits 0 (zero_le _)
    rcases pmapInsertOne_same hpte with hsame | ⟨e, hsame⟩
    · obtain ⟨rfl, rfl⟩ := Prod.mk.inj (hsame.symm.trans heq)
      exact ⟨hk, fun hr => nomatch hr⟩
    · obtain ⟨rfl, rfl⟩ := Prod.mk.inj (hsame.symm.trans heq)
      exact ⟨hk.apart (Apart.refl _) fun _ => .inl rfl, fun hr => nomatch hr⟩
  | true =>
    cases hp : isPresent pte with
    | false =>
      refine ⟨(keeps hroom hT envid).pmapInsertOne_absent (hfits 0 (zero_le _)) rfl hp heq, ?_⟩
      rintro rfl
      exact absurd (pmapInsertOne_true heq) (by rw [hp]; decide)
    | true =>
      have hk := hfits (if pgno pte = P then 1 else 0) (by simp [hp])
      rcases (keepsMap hroom hT envid (pgno pte)).pmapInsertOne hk rfl heq with
        ⟨-, hpost, hpass⟩ | ⟨hr, hI⟩
      · exact ⟨hpost, fun _ => hpass⟩
      obtain ⟨n', href', hlt', hle'⟩ := hI.count
      exact ⟨⟨hI.off, hI.lt, hI.inUse, hI.acl, ⟨n', href', hlt', by omega⟩, hI.still,
        fun _ hx => nomatch hx⟩, fun h => absurd h hr⟩

/-- The pages of the rounds to come are ones the call changes, or show what is asked for. -/
def Visits (k₀ : Kernel) (d : Fin nenv) (T : Slot → Bool) (ptes : List (BitVec 32))
    (va : BitVec 32) : Prop :=
  ∀ i pte, ptes[i]? = some pte → T (slotOf (va + 4096 * BitVec.ofNat 32 i)) = true ∨
    k₀.slot d (slotOf (va + 4096 * BitVec.ofNat 32 i)) = some pte

theorem Visits.head (h : Visits k₀ d T (pte :: rest) va) :
    T (slotOf va) = true ∨ k₀.slot d (slotOf va) = some pte := by
  simpa using h 0 pte rfl

theorem Visits.tail (h : Visits k₀ d T (pte :: rest) va) : Visits k₀ d T rest (va + 4096) := by
  intro i pte' hi
  rw [← page_succ]
  exact h (i + 1) pte' hi

end

/-! ## 6. Pages that a call spares -/

namespace InsertCall

variable {call : InsertCall} {k : Kernel} {cur : Fin nenv} {P : Nat}

theorem Leads.run {k' : Kernel} {i d : Fin nenv} {c : ClistCap} (h : call.Leads k cur k')
    (hruns : call.Runs k cur i c d) (hcounts : call.Counts) :
    ∃ ptes completed,
      (pmapInsertLoop d (k.envs i).id c.1 true (call.num.toNat - completed.toNat) ptes call.start
        completed k).2.2 = k' ∧
      call.asked = ptes.take (call.num.toNat - completed.toNat) := by
  obtain ⟨ptes, completed, hrun, hasked⟩ : ∃ ptes completed,
      (pmapInsertRange k cur call.tgt call.kcap ptes call.num call.start completed true).2.2 = k' ∧
      call.asked = ptes.take (call.num.toNat - completed.toNat) := by
    cases call with
    | one tgt kcap pte va => exact ⟨[pte], 0, h, rfl⟩
    | range tgt kcap ptes num va completed =>
      exact ⟨ptes, completed.word, h.resolve_left fun hwild => hwild.1 hcounts, rfl⟩
  refine ⟨ptes, completed, ?_, hasked⟩
  rw [← hrun, pmapInsertRange, hruns.target]
  dsimp only
  rw [hruns.range, if_neg Bool.false_ne_true, hruns.cap]
  dsimp only
  rw [hruns.pd]

end InsertCall

end Exokernel
