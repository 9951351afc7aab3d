import Exokernel.Lib.Run
import Exokernel.Libos.Fork

/-!
# Fork and copy-on-write — who can see a page

A page that is not shared is at one virtual address, in the parent, in the child or in both.
**If it is in both then neither of them can write to it.** During `fork1` there is one
exception: the parent can still write to the pages of the range that is to be protected.

The child has an entry as soon as it is collected (`Vm.image`). With this view the insertion of
a batch changes nothing, and what remains is that a page whose entry is collected must not get
lost to the parent before the batch is inserted: then its count would be wrong, and it could be
made writable or be given to somebody else.
-/
set_option autoImplicit false

namespace Exokernel.Libos

open Function Option List

/-! ## 1. Pages that are shared by two address spaces -/

/-- A private page is at one address and not writable where both have it, except at the
    addresses in `prot`; nobody has the pages in `tmp`. -/
structure Sharing (σ : Side → Nat → Option Pte) (prot : Nat → Prop) (tmp : Side → Option Nat) :
    Prop where
  once : ∀ A va e B v d, σ A va = some e → e.shared = false → σ B v = some d →
    d.ppn = e.ppn → v = va ∧ d.shared = false
  both : ∀ va a c, σ .parent va = some a → σ .child va = some c → a.shared = false →
    a.ppn = c.ppn → c.w = false ∧ (a.w = true → prot va)
  fresh : ∀ A n, tmp A = some n → ∀ B v d, σ B v = some d → d.ppn ≠ n
  apart : ∀ n, tmp .parent = some n → tmp .child ≠ some n

section Sharing

variable {σ : Side → Nat → Option Pte} {prot : Nat → Prop} {tmp : Side → Option Nat}

variable {A : Side} {o : Option Pte} {va : Nat}

theorem setSpace_self : setSpace σ A va o A va = o := by
  simp [setSpace]

theorem setSpace_of_ne {B : Side} {v : Nat} (h : ¬(B = A ∧ v = va)) :
    setSpace σ A va o B v = σ B v := by
  simp only [setSpace, if_neg h]

theorem setSpace_eq_some {B : Side} {v : Nat} {d : Pte} :
    setSpace σ A va o B v = some d ↔
      ((B = A ∧ v = va) ∧ o = some d) ∨ (¬(B = A ∧ v = va) ∧ σ B v = some d) := by
  unfold setSpace
  split <;> simp_all

section

variable (h : Sharing σ prot tmp)
include h

/-- Mappings and reserved pages may go, and more pages may be about to be protected. -/
theorem Sharing.weaken {σ' : Side → Nat → Option Pte} {prot' : Nat → Prop}
    {tmp' : Side → Option Nat}
    (hσ : ∀ A va e, σ' A va = some e → σ A va = some e) (hp : ∀ va, prot va → prot' va)
    (ht : ∀ A n, tmp' A = some n → tmp A = some n) : Sharing σ' prot' tmp' where
  once A va e B v d he hs hd := h.once A va e B v d (hσ _ _ _ he) hs (hσ _ _ _ hd)
  both va a c ha hc hs heq :=
    (h.both va a c (hσ _ _ _ ha) (hσ _ _ _ hc) hs heq).imp_right fun hw hw' => hp va (hw hw')
  fresh A n hn B v d hd := h.fresh A n (ht A n hn) B v d (hσ _ _ _ hd)
  apart n hn hn' := h.apart n (ht _ n hn) (ht _ n hn')

/-- Every mapping is one that was there, on either side, but for its flags. -/
theorem Sharing.of_entries {σ' : Side → Nat → Option Pte} {prot' : Nat → Prop}
    (hold : ∀ B v d, σ' B v = some d →
      ∃ B' d', σ B' v = some d' ∧ d'.ppn = d.ppn ∧ d'.shared = d.shared)
    (hboth : ∀ va a c, σ' .parent va = some a → σ' .child va = some c → a.shared = false →
      a.ppn = c.ppn → c.w = false ∧ (a.w = true → prot' va)) : Sharing σ' prot' tmp := by
  refine ⟨?_, hboth, ?_, h.apart⟩
  · intro B v d B' v' d' hd hs hd' heq
    obtain ⟨X, x, hx, hxp, hxs⟩ := hold B v d hd
    obtain ⟨Y, y, hy, hyp, hys⟩ := hold B' v' d' hd'
    have hxy := h.once X v x Y v' y hx (hxs.trans hs) hy (by rw [hyp, hxp, heq])
    exact ⟨hxy.1, hys ▸ hxy.2⟩
  · intro B n hn B' v d hd
    obtain ⟨X, x, hx, hxp, -⟩ := hold B' v d hd
    exact hxp ▸ h.fresh B n hn X v x hx

/-- The flags of a mapping change. It may become writable if the other side does not have the
    page. -/
theorem Sharing.flags {e e' : Pte}
    (he : σ A va = some e) (hppn : e'.ppn = e.ppn) (hsh : e'.shared = e.shared)
    (hw : e'.w = true → ∀ o, σ A.other va = some o → o.ppn ≠ e.ppn) :
    Sharing (setSpace σ A va (some e')) prot tmp := by
  refine h.of_entries (fun B v d hd => ?_) fun v a c ha hc hs heq => ?_
  · rcases setSpace_eq_some.mp hd with ⟨⟨rfl, rfl⟩, hnew⟩ | ⟨-, hd⟩
    · cases hnew
      exact ⟨B, e, he, hppn.symm, hsh.symm⟩
    · exact ⟨B, d, hd, rfl, rfl⟩
  by_cases hv : v = va
  · subst hv
    cases A with
    | parent =>
      obtain rfl : e' = a := by simpa [setSpace] using ha
      replace hc : σ .child v = some c := by simpa [setSpace] using hc
      have hb := h.both v e c he hc (hsh ▸ hs) (hppn ▸ heq)
      exact ⟨hb.1, fun hw' => absurd (heq.symm.trans hppn) (hw hw' c hc)⟩
    | child =>
      obtain rfl : e' = c := by simpa [setSpace] using hc
      replace ha : σ .parent v = some a := by simpa [setSpace] using ha
      have hb := h.both v a e ha he hs (heq.trans hppn)
      refine ⟨?_, hb.2⟩
      by_contra hw'
      exact hw (by simpa using hw') a ha (heq.trans hppn)
  · rw [setSpace_of_ne (by tauto)] at ha hc
    exact h.both v a c ha hc hs heq

theorem Sharing.map {e : Pte}
    (hnew : ∀ B v d, σ B v = some d → d.ppn ≠ e.ppn) (ht : ∀ B, tmp B ≠ some e.ppn) :
    Sharing (setSpace σ A va (some e)) prot tmp := by
  refine ⟨?_, ?_, ?_, h.apart⟩
  · intro B v d B' v' d' hd hs hd' heq
    rcases setSpace_eq_some.mp hd with ⟨⟨hB, hv⟩, hd⟩ | ⟨-, hd⟩ <;>
      rcases setSpace_eq_some.mp hd' with ⟨⟨hB', hv'⟩, hd'⟩ | ⟨-, hd'⟩
    · cases hd
      cases hd'
      exact ⟨hv'.trans hv.symm, hs⟩
    · cases hd
      exact absurd heq (hnew B' v' d' hd')
    · cases hd'
      exact absurd heq.symm (hnew B v d hd)
    · exact h.once B v d B' v' d' hd hs hd' heq
  · intro v a c ha hc hs heq
    rcases setSpace_eq_some.mp ha with ⟨⟨hA, -⟩, ha⟩ | ⟨-, ha⟩ <;>
      rcases setSpace_eq_some.mp hc with ⟨⟨hA', -⟩, hc⟩ | ⟨-, hc⟩
    · exact absurd (hA.trans hA'.symm) (by decide)
    · cases ha
      exact absurd heq.symm (hnew _ _ _ hc)
    · cases hc
      exact absurd heq (hnew _ _ _ ha)
    · exact h.both v a c ha hc hs heq
  · intro B n hn B' v d hd
    rcases setSpace_eq_some.mp hd with ⟨-, hd⟩ | ⟨-, hd⟩
    · cases hd
      rintro rfl
      exact ht B hn
    · exact h.fresh B n hn B' v d hd

theorem Sharing.inherit {prot' : Nat → Prop} {a c : Pte}
    (ha : σ .parent va = some a) (hppn : c.ppn = a.ppn) (hsh : c.shared = a.shared)
    (hw : a.shared = false → c.w = false ∧ (a.w = true → prot' va))
    (hp : ∀ v, prot v → prot' v) : Sharing (setSpace σ .child va (some c)) prot' tmp := by
  refine h.of_entries (fun B v d hd => ?_) fun v x y hx hy hs heq => ?_
  · rcases setSpace_eq_some.mp hd with ⟨⟨rfl, rfl⟩, hnew⟩ | ⟨-, hd⟩
    · cases hnew
      exact ⟨.parent, a, ha, hppn.symm, hsh.symm⟩
    · exact ⟨B, d, hd, rfl, rfl⟩
  replace hx : σ .parent v = some x := by simpa [setSpace] using hx
  rcases setSpace_eq_some.mp hy with ⟨⟨-, hv⟩, hy⟩ | ⟨-, hy⟩
  · cases hy
    subst hv
    obtain rfl : a = x := by simpa [ha] using hx
    exact hw hs
  · exact (h.both v x y hx hy hs heq).imp_right fun hw' hxw => hp v (hw' hxw)

theorem Sharing.reserve {n : Nat}
    (hnew : ∀ B v d, σ B v = some d → d.ppn ≠ n) (ht : tmp A.other ≠ some n) :
    Sharing σ prot (update tmp A (some n)) := by
  refine ⟨h.once, h.both, ?_, ?_⟩
  · intro B m hm
    by_cases hB : B = A
    · subst hB
      obtain rfl : n = m := by simpa using hm
      exact hnew
    · rw [update_of_ne hB] at hm
      exact h.fresh B m hm
  · intro m hm hm'
    cases A <;> simp_all [update, Side.other]

end

theorem Sharing.protect (h : Sharing σ prot tmp) [DecidablePred prot] :
    Sharing (fun A va => if A = .parent ∧ prot va then (σ A va).map Pte.protect else σ A va)
      (fun _ => False) tmp := by
  have hold : ∀ A va e, (if A = .parent ∧ prot va then (σ A va).map Pte.protect else σ A va) =
      some e → ∃ d, σ A va = some d ∧ d.ppn = e.ppn ∧ d.shared = e.shared ∧
        (e.w = true → d.w = true ∧ ¬(A = .parent ∧ prot va)) := by
    intro A va e he
    split at he
    · obtain ⟨d, hd, rfl⟩ := map_eq_some_iff.mp he
      exact ⟨d, hd, rfl, rfl, nofun⟩
    · rename_i hp
      exact ⟨e, he, rfl, rfl, fun hw => ⟨hw, hp⟩⟩
  refine h.of_entries (fun A va e he => ?_) fun va a c ha hc hs heq => ?_
  · obtain ⟨d, hd, hdp, hds, -⟩ := hold A va e he
    exact ⟨A, d, hd, hdp, hds⟩
  obtain ⟨x, hx, hxp, hxs, hxw⟩ := hold .parent va a ha
  obtain ⟨y, hy, hyp, hys, hyw⟩ := hold .child va c hc
  have hb := h.both va x y hx hy (hxs.trans hs) (by rw [hyp, hxp, heq])
  refine ⟨?_, fun haw => (hxw haw).2 ⟨rfl, hb.2 (hxw haw).1⟩⟩
  by_contra hcw
  exact absurd (hyw (by simpa using hcw)).1 (by simp [hb.1])

theorem Sharing.tmp_inj (h : Sharing σ prot tmp) {B : Side} {n : Nat} (hA : tmp A = some n)
    (hB : tmp B = some n) : B = A := by
  cases A <;> cases B <;> first
    | rfl
    | exact absurd hB (h.apart n hA)
    | exact absurd hA (h.apart n hB)

end Sharing

/-! ## 2. The number of mappings -/

section Counts

variable {L : Layout} {s : Vm} {A : Side} {va p : Nat} {e : Pte}

theorem mappings_pos (he : s.space A va = some e) (hva : va < L.utop) :
    0 < mappings L s A e.ppn := by
  refine countP_pos_iff.mpr ⟨va, by simpa using hva, ?_⟩
  simp [he]

theorem ppRefcnt_zero (h : ppRefcnt L s p = 0) (he : s.space A va = some e)
    (hva : va < L.utop) : e.ppn ≠ p := by
  rintro rfl
  have hpos := mappings_pos he hva
  unfold ppRefcnt at h
  cases A <;> omega

theorem ppRefcnt_zero_temp (h : ppRefcnt L s p = 0) (A : Side) :
    (s.fault A).bind (·.pc.temp) ≠ some p := by
  intro ht
  have hone : tempMappings s A p = 1 := if_pos ht
  unfold ppRefcnt at h
  cases A <;> omega

theorem ppRefcnt_one (h : ppRefcnt L s p = 1) (he : s.space A va = some e) (hp : e.ppn = p)
    (hva : va < L.utop) {v : Nat} {o : Pte} (ho : s.space A.other v = some o)
    (hv : v < L.utop) : o.ppn ≠ p := by
  subst hp
  intro heq
  have hpos := mappings_pos he hva
  have hpos' := mappings_pos ho hv
  rw [heq] at hpos'
  unfold ppRefcnt at h
  cases A <;> simp only [Side.other] at hpos' <;> omega

theorem isPrivate_of_space (he : s.space A va = some e) (hva : va < L.utop)
    (hsh : e.shared = false) : isPrivate L s e.ppn = true := by
  simp only [isPrivate, List.any_eq_true]
  refine ⟨A, by cases A <;> simp, ?_⟩
  rw [Bool.or_eq_true]
  exact .inl (List.any_eq_true.mpr ⟨va, by simpa using hva, by simp [he, hsh]⟩)

theorem isPrivate_of_temp (h : (s.fault A).bind (·.pc.temp) = some p) :
    isPrivate L s p = true := by
  simp only [isPrivate, List.any_eq_true]
  exact ⟨A, by cases A <;> simp, by simp [h]⟩

end Counts

/-! ## 3. What the child has -/

/-- The entry of the child, or the one that is collected for it. -/
def Vm.image (s : Vm) (va : Nat) : Option Pte :=
  if s.fork.Pending va then (s.fork.ptes[va - s.fork.insertStart]?).join else s.space .child va

def Vm.img (s : Vm) : Side → Nat → Option Pte
  | .parent => s.space .parent
  | .child => s.image

/-- The page of a handler that is not mapped yet. -/
def CowPc.reserved : CowPc → Option Nat
  | .copy n | .insert n => some n
  | _ => none

def Vm.tmp (s : Vm) (A : Side) : Option Nat := (s.fault A).bind (·.pc.reserved)

section Image

variable {s t : Vm} {A : Side} {va : Nat} {o : Option Pte}

theorem img_of_not_pending (h : ¬s.fork.Pending va) : s.img A va = s.space A va := by
  cases A with
  | parent => rfl
  | child => exact if_neg h

theorem image_of_pending (h : s.fork.Pending va) :
    s.image va = (s.fork.ptes[va - s.fork.insertStart]?).join :=
  if_pos h

theorem not_pending_nil (h : s.fork.ptes = []) : ¬s.fork.Pending va := by
  simp only [Fork.Pending, h, length_nil]
  omega

/-- What the child has is settled by its space and the collected entries. -/
theorem image_congr (hs : t.space .child = s.space .child)
    (hst : t.fork.insertStart = s.fork.insertStart) (hp : t.fork.ptes = s.fork.ptes) :
    t.image = s.image := by
  have hpend : ∀ va, t.fork.Pending va ↔ s.fork.Pending va := by
    intro va
    simp only [Fork.Pending, hst, hp]
  funext va
  simp only [Vm.image, hpend, hs, hst, hp]

theorem img_setSpace (hs : t.space = setSpace s.space A va o) (hf : t.fork = s.fork)
    (hva : ¬s.fork.Pending va) : t.img = setSpace s.img A va o := by
  funext B v
  by_cases hv : B = A ∧ v = va
  · obtain ⟨rfl, rfl⟩ := hv
    rw [img_of_not_pending (by rwa [hf]), hs, setSpace_self, setSpace_self]
  rw [setSpace_of_ne hv]
  have hsame : t.space B v = s.space B v := by rw [hs, setSpace_of_ne hv]
  cases B with
  | parent => exact hsame
  | child => simp only [Vm.img, Vm.image, hf, hsame]

theorem img_append (hva : s.fork.insertStart + s.fork.ptes.length = va)
    (hs : ∀ B v, ¬(B = Side.child ∧ v = va) → t.space B v = s.space B v)
    (hst : t.fork.insertStart = s.fork.insertStart) (hp : t.fork.ptes = s.fork.ptes ++ [o]) :
    t.img = setSpace s.img .child va o := by
  have hpend : ∀ v, t.fork.Pending v ↔ s.fork.Pending v ∨ v = va := by
    intro v
    simp only [Fork.Pending, hst, hp, length_append, length_singleton]
    omega
  funext B v
  by_cases hv : B = Side.child ∧ v = va
  · obtain ⟨rfl, rfl⟩ := hv
    rw [setSpace_self]
    show t.image v = o
    rw [image_of_pending ((hpend v).mpr (.inr rfl)), hst, hp,
      show v - s.fork.insertStart = s.fork.ptes.length by omega]
    simp
  rw [setSpace_of_ne hv]
  cases B with
  | parent => exact hs .parent v hv
  | child =>
    have hne : v ≠ va := by simpa using hv
    by_cases hin : s.fork.Pending v
    · show t.image v = s.image v
      rw [image_of_pending hin, image_of_pending ((hpend v).mpr (.inl hin)), hst, hp,
        List.getElem?_append_left (by unfold Fork.Pending at hin; omega)]
    · rw [img_of_not_pending hin, img_of_not_pending (by simp [hpend, hin, hne])]
      exact hs .child v hv

theorem img_insertBatch (hs : t.space = (insertBatch s).space) (hp : t.fork.ptes = []) :
    t.img = s.img := by
  funext A va
  rw [img_of_not_pending (not_pending_nil hp), hs]
  cases A <;> simp [Vm.img, Vm.image, insertBatch]

end Image

/-! ## 4. The invariant -/

/-- A handler that runs. -/
structure FaultOk (s : Vm) (A : Side) (f : CowFault) : Prop where
  entry : (∀ n, f.pc ≠ .unmap n) → s.img A f.va = some f.pte
  alone : f.pc = .grab → ∀ o, s.img A.other f.va = some o → o.ppn ≠ f.pte.ppn
  copied : ∀ n, f.pc = .insert n → f.pte.shared = false → s.data n = s.data f.pte.ppn
  inserted : ¬s.fork.Pending f.va
  late : A = .child → s.fork.pc = .done

/-- Where an absent directory can be met: at its beginning. -/
def Edge (s : Vm) : Prop :=
  s.fork.va % dirPages = 0 ∨ s.fork.va = 1 ∨ s.pd (s.fork.va / dirPages) = true

/-- The variables of `fork1` at its program points. -/
def Fork.At (L : Layout) (s : Vm) : Prop :=
  let f := s.fork
  let next := Edge s ∧ (f.insertStart + f.ptes.length = f.va ∨ f.insertStart + batch ≤ f.va)
  match f.pc with
  | .top => next ∧ (f.protPgs ≠ 0 → f.protStart + f.protPgs = f.va)
  | .scan => f.insertStart + f.ptes.length = f.va ∧ Edge s ∧ f.va < L.utop ∧
      (f.protPgs ≠ 0 → f.protStart + f.protPgs = f.va)
  | .protect => next
  | .endProtect => L.utop ≤ f.va
  | .endInsert => L.utop ≤ f.va ∧ f.protPgs = 0
  | .ready => L.utop ≤ f.va ∧ f.protPgs = 0 ∧ f.ptes = []
  | .done => f.protPgs = 0 ∧ f.ptes = []

structure Book (L : Layout) (s : Vm) : Prop where
  mapped : ∀ A va e, s.img A va = some e → va < L.utop
  dir : ∀ va e, s.space .parent va = some e → s.pd (va / dirPages) = true
  backed : ∀ va q, s.fork.Pending va → s.image va = some q →
    ∃ A e, s.space A va = some e ∧ e.ppn = q.ppn ∧ e.shared = q.shared
  collected : s.fork.insertStart + s.fork.ptes.length ≤ s.fork.va
  at_ : Fork.At L s

structure Inv (L : Layout) (s : Vm) : Prop where
  sharing : Sharing s.img s.fork.InProt s.tmp
  fault : ∀ A f, s.fault A = some f → FaultOk s A f
  book : Book L s

section Facts

variable {L : Layout} {s : Vm} {A : Side} {va n : Nat} {e : Pte} {f : CowFault}

theorem Inv.ptes_done (h : Inv L s) (hpc : s.fork.pc = .done) : s.fork.ptes = [] := by
  have hat := h.book.at_
  simp only [Fork.At, hpc] at hat
  exact hat.2

theorem Inv.prot_done (h : Inv L s) (hpc : s.fork.pc = .done) : ¬s.fork.InProt va := by
  have hat := h.book.at_
  simp only [Fork.At, hpc] at hat
  unfold Fork.InProt
  omega

theorem Vm.runs_fault (h : s.runs A = true) : s.fault A = none := by
  simp only [Vm.runs, Bool.and_eq_true, beq_iff_eq] at h
  exact h.1

theorem Vm.runs_child (h : s.runs .child = true) : s.fork.pc = .done := by
  simpa [Vm.runs] using (show _ ∧ _ by simpa [Vm.runs] using h).2

theorem Inv.img_runs (h : Inv L s) (hr : s.runs A = true) : s.img A = s.space A := by
  cases A with
  | parent => rfl
  | child =>
    funext va
    exact img_of_not_pending (not_pending_nil (h.ptes_done (Vm.runs_child hr)))

/-- There is a mapping for what a process has, also if its entry is only collected. -/
theorem Inv.backed (h : Inv L s) (he : s.img A va = some e) :
    ∃ B d, s.space B va = some d ∧ d.ppn = e.ppn ∧ d.shared = e.shared := by
  by_cases hp : s.fork.Pending va
  · cases A with
    | parent => exact ⟨.parent, e, he, rfl, rfl⟩
    | child => exact h.book.backed va e hp he
  · exact ⟨A, e, img_of_not_pending hp ▸ he, rfl, rfl⟩

theorem Inv.free (h : Inv L s) (hn : ppRefcnt L s n = 0) {B : Side} {v : Nat} {d : Pte}
    (hd : s.img B v = some d) : d.ppn ≠ n := by
  obtain ⟨A, e, he, heq, -⟩ := h.backed hd
  exact heq ▸ ppRefcnt_zero hn he (h.book.mapped B v d hd)

theorem tmp_temp (h : s.tmp A = some n) : (s.fault A).bind (·.pc.temp) = some n := by
  obtain ⟨f, hf, hr⟩ := bind_eq_some_iff.mp h
  refine bind_eq_some_iff.mpr ⟨f, hf, ?_⟩
  cases hpc : f.pc <;> simp_all [CowPc.reserved, CowPc.temp]

theorem Inv.free_tmp (hn : ppRefcnt L s n = 0) (A : Side) : s.tmp A ≠ some n :=
  fun h => ppRefcnt_zero_temp hn A (tmp_temp h)

theorem Inv.priv (h : Inv L s) (he : s.img A va = some e) (hsh : e.shared = false) :
    isPrivate L s e.ppn = true := by
  obtain ⟨B, d, hd, heq, hsd⟩ := h.backed he
  exact heq ▸ isPrivate_of_space hd (h.book.mapped A va e he) (hsd.trans hsh)

end Facts

/-! ## 5. Stores -/

section Stores

variable {L : Layout} {s : Vm} {A B : Side} {va v p off : Nat} {b : BitVec 8} {e d : Pte}

/-- Contents and the mappings of others change; the handlers must not lose what they have
    copied. -/
theorem Inv.of_data (h : Inv L s) {data : Nat → Contents} {others : Nat → Nat}
    (hc : ∀ A f n, s.fault A = some f → f.pc = .insert n → f.pte.shared = false →
      data n = data f.pte.ppn) :
    Inv L { s with data := data, others := others } where
  sharing := h.sharing
  fault A f hf :=
    let hfo := h.fault A f hf
    ⟨hfo.entry, hfo.alone, fun n hn hp => hc A f n hf hn hp, hfo.inserted, hfo.late⟩
  book := ⟨h.book.mapped, h.book.dir, h.book.backed, h.book.collected, h.book.at_⟩

/-- A page of another process that can be written is not one of this process. During `fork1`
    that is not so for the child, which does not run. -/
theorem Inv.store_unseen (h : Inv L s) (hr : s.runs A = true) (he : s.space A va = some e)
    (hw : e.w = true) (hlate : A = .parent → s.fork.pc = .done)
    (hd : s.img A.other v = some d) (hpriv : e.shared = false ∨ d.shared = false) :
    d.ppn ≠ e.ppn := by
  intro heq
  rw [← h.img_runs hr] at he
  have hsame : v = va ∧ e.shared = false := by
    rcases hpriv with hs | hs
    · exact ⟨(h.sharing.once A va e _ v d he hs hd heq).1, hs⟩
    · have := h.sharing.once _ v d A va e hd hs he heq.symm
      exact ⟨this.1.symm, this.2⟩
  obtain ⟨rfl, hes⟩ := hsame
  cases A with
  | parent =>
    exact h.prot_done (hlate rfl) ((h.sharing.both v e d he hd hes heq.symm).2 hw)
  | child =>
    have hds := (h.sharing.once .child v e .parent v d he hes hd heq).2
    have hcw := (h.sharing.both v d e hd he hds heq).1
    simp [hcw] at hw

/-- A page that is not the parent's is not written by it, and neither is a reserved one. -/
theorem Inv.store (h : Inv L s) (hr : s.runs A = true) (he : s.space A va = some e)
    (hw : e.w = true) : Inv L (storeByte s e.ppn off b) := by
  refine h.of_data fun B f n hf hn hpriv => ?_
  have hfo := h.fault B f hf
  -- The handler belongs to the other side.
  obtain rfl : B = A.other := by
    have hne : B ≠ A := by
      rintro rfl
      rw [Vm.runs_fault hr] at hf
      cases hf
    cases A <;> cases B <;> simp_all [Side.other]
  have hentry := hfo.entry (by simp [hn])
  have htmp : s.tmp A.other = some n := by simp [Vm.tmp, hf, hn, CowPc.reserved]
  have hne : n ≠ e.ppn := by
    rw [← h.img_runs hr] at he
    exact (h.sharing.fresh _ n htmp A va e he).symm
  have hne' : f.pte.ppn ≠ e.ppn := by
    refine h.store_unseen hr he hw ?_ hentry (.inr hpriv)
    rintro rfl
    exact hfo.late rfl
  simp only [update_of_ne hne, update_of_ne hne']
  exact hfo.copied n hn hpriv

theorem Inv.otherStore (h : Inv L s) (hp : isPrivate L s p = false) :
    Inv L (storeByte s p off b) := by
  have hne_p : ∀ q, isPrivate L s q = true → q ≠ p := by
    rintro q hq rfl
    simp [hp] at hq
  refine h.of_data fun B f n hf hn hpriv => ?_
  have hfo := h.fault B f hf
  have hne : n ≠ p := hne_p n (isPrivate_of_temp (A := B) (by simp [hf, hn, CowPc.temp]))
  have hne' : f.pte.ppn ≠ p := hne_p _ (h.priv (hfo.entry (by simp [hn])) hpriv)
  simp only [update_of_ne hne, update_of_ne hne']
  exact hfo.copied n hn hpriv

end Stores

/-! ## 6. Handlers -/

section Handlers

variable {L : Layout} {s : Vm} {A B : Side} {va n : Nat} {e e' : Pte} {f : CowFault}
  {o : Option CowFault}

theorem Inv.of_fault (h : Inv L s) (hf : ∀ f, o = some f → FaultOk s A f)
    (hsh : Sharing s.img s.fork.InProt (update s.tmp A (o.bind (·.pc.reserved)))) :
    Inv L { s with fault := update s.fault A o } where
  sharing := by
    refine hsh.weaken (fun _ _ _ he => he) (fun _ hp => hp) fun B n hn => ?_
    by_cases hB : B = A
    · subst hB
      simpa [Vm.tmp] using hn
    · simpa [Vm.tmp, update_of_ne hB] using hn
  fault B g hg := by
    have hok : FaultOk s B g := by
      by_cases hB : B = A
      · subst hB
        exact hf g (by simpa using hg)
      · exact h.fault B g (by simpa [update_of_ne hB] using hg)
    exact ⟨hok.entry, hok.alone, hok.copied, hok.inserted, hok.late⟩
  book := ⟨h.book.mapped, h.book.dir, h.book.backed, h.book.collected, h.book.at_⟩

theorem Inv.of_fault' (h : Inv L s) (hf : ∀ f, o = some f → FaultOk s A f)
    (hr : o.bind (·.pc.reserved) = none) :
    Inv L { s with fault := update s.fault A o } := by
  refine h.of_fault hf (h.sharing.weaken (fun _ _ _ he => he) (fun _ hp => hp) ?_)
  intro B n hn
  by_cases hB : B = A
  · subst hB
    simp [hr] at hn
  · simpa [update_of_ne hB] using hn

/-- A process changes one of its entries, and its handler does not rely on the old one. -/
theorem Inv.remap (h : Inv L s) (he : s.img A va = some e) (hva : ¬s.fork.Pending va)
    (hsh : Sharing (setSpace s.img A va (some e')) s.fork.InProt s.tmp)
    (hown : ∀ f, s.fault A = some f → ∃ n, f.pc = .unmap n)
    (hoth : ∀ f, s.fault A.other = some f → f.pc = .grab → f.va = va → e'.ppn ≠ f.pte.ppn) :
    Inv L { s with space := setSpace s.space A va (some e') } := by
  have himg := img_setSpace (s := s) (t := { s with space := setSpace s.space A va (some e') })
    rfl rfl hva
  have hspace : s.space A va = some e := by rwa [img_of_not_pending hva] at he
  refine ⟨by rwa [himg], ?_, ⟨?_, ?_, ?_, h.book.collected, h.book.at_⟩⟩
  · intro B f hf
    have hfo := h.fault B f hf
    by_cases hB : B = A
    · subst hB
      obtain ⟨n, hn⟩ := hown f hf
      exact ⟨fun hne => absurd hn (hne n), by simp [hn], by simp [hn], hfo.inserted, hfo.late⟩
    obtain rfl : B = A.other := by cases A <;> cases B <;> simp_all [Side.other]
    have hAB : A.other.other = A := by cases A <;> rfl
    refine ⟨?_, ?_, hfo.copied, hfo.inserted, hfo.late⟩
    · intro hne
      rw [himg, setSpace_of_ne (fun hc => hB hc.1)]
      exact hfo.entry hne
    intro hg x hx
    rw [himg, hAB] at hx
    rcases setSpace_eq_some.mp hx with ⟨⟨-, hv⟩, hx⟩ | ⟨-, hx⟩
    · cases hx
      exact hoth f hf hg hv
    · exact hfo.alone hg x (by rwa [hAB])
  · intro B v d hd
    rw [himg] at hd
    rcases setSpace_eq_some.mp hd with ⟨⟨-, rfl⟩, -⟩ | ⟨-, hd⟩
    · exact h.book.mapped A v e he
    · exact h.book.mapped B v d hd
  · intro v d hd
    rcases setSpace_eq_some.mp hd with ⟨⟨rfl, rfl⟩, -⟩ | ⟨-, hd⟩
    · exact h.book.dir v e hspace
    · exact h.book.dir v d hd
  · intro v q hp hq
    have hne : v ≠ va := by
      rintro rfl
      exact hva hp
    have hq' : s.image v = some q := by
      have := congrFun (congrFun himg .child) v
      rw [setSpace_of_ne (by simp [hne])] at this
      exact this.symm.trans hq
    obtain ⟨B, d, hd, hdq⟩ := h.book.backed v q hp hq'
    exact ⟨B, d, (setSpace_of_ne (by simp [hne])).trans hd, hdq⟩

/-- A write to a copy-on-write page that is not waiting to be inserted. -/
theorem Inv.startFault (h : Inv L s) (hr : s.runs A = true) (he : s.space A va = some e)
    (hva : ¬s.fork.Pending va) :
    Inv L { s with fault := update s.fault A (some ⟨va, e, .test⟩) } := by
  have himg : s.img A va = some e := by rwa [img_of_not_pending hva]
  refine h.of_fault' ?_ rfl
  rintro f ⟨⟩
  exact ⟨fun _ => himg, nofun, nofun, hva, fun hA =>
    Vm.runs_child (hA ▸ hr)⟩

theorem FaultOk.space (h : FaultOk s A f) (hpc : ∀ n, f.pc ≠ .unmap n) :
    s.space A f.va = some f.pte := by
  rw [← img_of_not_pending h.inserted]
  exact h.entry hpc

section
variable (h : Inv L s) (hf : s.fault A = some f)
include h hf

/-- `pp_refcnt` is one: the other side does not have the page. -/
theorem Inv.testGrab (hpc : f.pc = .test)
    (hone : ppRefcnt L s f.pte.ppn = 1) :
    Inv L { s with fault := update s.fault A (some { f with pc := .grab }) } := by
  have hfo := h.fault A f hf
  have hentry := hfo.entry (by simp [hpc])
  refine h.of_fault' ?_ rfl
  rintro g ⟨⟩
  refine ⟨fun _ => hentry, fun _ o ho => ?_, nofun, hfo.inserted, hfo.late⟩
  have hva := h.book.mapped A f.va f.pte hentry
  rw [img_of_not_pending hfo.inserted] at ho
  exact ppRefcnt_one hone (hfo.space (by simp [hpc])) rfl hva ho hva

theorem Inv.testAlloc (hpc : f.pc = .test) :
    Inv L { s with fault := update s.fault A (some { f with pc := .alloc }) } := by
  have hfo := h.fault A f hf
  refine h.of_fault' ?_ rfl
  rintro g ⟨⟩
  exact ⟨fun _ => hfo.entry (by simp [hpc]), nofun, nofun, hfo.inserted, hfo.late⟩

theorem Inv.allocPage (hpc : f.pc = .alloc) (hn : ppRefcnt L s n = 0) :
    Inv L { s with fault := update s.fault A (some { f with pc := .copy n }) } := by
  have hfo := h.fault A f hf
  refine h.of_fault ?_ (h.sharing.reserve (fun B v d hd => h.free hn hd) (Inv.free_tmp hn _))
  rintro g ⟨⟩
  exact ⟨fun _ => hfo.entry (by simp [hpc]), nofun, nofun, hfo.inserted, hfo.late⟩

theorem Inv.copyPage (hpc : f.pc = .copy n) :
    Inv L { s with
      data := update s.data n (s.data f.pte.ppn)
      fault := update s.fault A (some { f with pc := .insert n }) } := by
  have hfo := h.fault A f hf
  have hentry := hfo.entry (by simp [hpc])
  have htmp : s.tmp A = some n := by simp [Vm.tmp, hf, hpc, CowPc.reserved]
  have hpn : f.pte.ppn ≠ n := h.sharing.fresh A n htmp A f.va f.pte hentry
  -- A page that the other handler has copied is neither of the two.
  have h1 : Inv L { s with data := update s.data n (s.data f.pte.ppn) } := by
    refine h.of_data fun B g m hg hm hpriv => ?_
    have hgo := h.fault B g hg
    have hBm : s.tmp B = some m := by simp [Vm.tmp, hg, hm, CowPc.reserved]
    have hBA : B ≠ A := by
      rintro rfl
      rw [hf] at hg
      cases hg
      rw [hpc] at hm
      cases hm
    have hmn : m ≠ n := by
      rintro rfl
      exact hBA (h.sharing.tmp_inj htmp hBm)
    have hgn := h.sharing.fresh A n htmp B g.va g.pte (hgo.entry (by simp [hm]))
    rw [update_of_ne hmn, update_of_ne hgn]
    exact hgo.copied m hm hpriv
  refine h1.of_fault ?_ ?_
  · rintro g ⟨⟩
    refine ⟨fun _ => hentry, nofun, ?_, hfo.inserted, hfo.late⟩
    rintro m ⟨⟩ -
    simp [update_of_ne hpn]
  · refine h1.sharing.weaken (fun _ _ _ he => he) (fun _ hp => hp) fun B m hm => ?_
    by_cases hB : B = A
    · subst hB
      have : n = m := by simpa [CowPc.reserved] using hm
      exact this ▸ htmp
    · simpa [update_of_ne hB] using hm

theorem Inv.grabPage (hpc : f.pc = .grab) :
    Inv L { s with
      space := setSpace s.space A f.va (some f.pte.uncow)
      fault := update s.fault A none } := by
  have hfo := h.fault A f hf
  have hentry := hfo.entry (by simp [hpc])
  have h1 : Inv L { s with fault := update s.fault A none } :=
    h.of_fault' (by simp) rfl
  refine h1.remap (e := f.pte) hentry hfo.inserted ?_ (by simp) ?_
  · exact h1.sharing.flags hentry rfl rfl fun _ o ho => hfo.alone hpc o ho
  intro g hg hgrab hva
  have hAB : A.other ≠ A := by cases A <;> simp [Side.other]
  replace hg : s.fault A.other = some g := (update_of_ne hAB _ _).symm.trans hg
  have hgo := (h.fault _ g hg).alone hgrab f.pte
  rw [show A.other.other = A by cases A <;> rfl, hva] at hgo
  exact hgo hentry

theorem Inv.insertPage (hpc : f.pc = .insert n) :
    Inv L { s with
      space := setSpace s.space A f.va (some { f.pte with ppn := n }.uncow)
      fault := update s.fault A (some { f with pc := .unmap n }) } := by
  have hfo := h.fault A f hf
  have hentry := hfo.entry (by simp [hpc])
  have htmp : s.tmp A = some n := by simp [Vm.tmp, hf, hpc, CowPc.reserved]
  have hnew := h.sharing.fresh A n htmp
  have h1 : Inv L { s with
      fault := update s.fault A (some { f with pc := .unmap n }) } := by
    refine h.of_fault' ?_ rfl
    rintro g ⟨⟩
    exact ⟨fun hne => absurd rfl (hne n), nofun, nofun, hfo.inserted, hfo.late⟩
  have hAB : A.other ≠ A := by cases A <;> simp [Side.other]
  refine h1.remap (e := f.pte) hentry hfo.inserted ?_ ?_ ?_
  · refine h1.sharing.map (e := { f.pte with ppn := n }.uncow) (by exact hnew) fun B hB => ?_
    by_cases hBA : B = A
    · subst hBA
      simp [Vm.tmp, CowPc.reserved] at hB
    have hBn : s.tmp B = some n := by
      simpa [Vm.tmp, update_of_ne hBA, Pte.uncow] using hB
    exact hBA (h.sharing.tmp_inj htmp hBn)
  · intro g hg
    exact ⟨n, by cases (show some _ = some g by simpa using hg); rfl⟩
  · intro g hg hgrab hva
    replace hg : s.fault A.other = some g := (update_of_ne hAB _ _).symm.trans hg
    exact (hnew _ _ _ ((h.fault _ g hg).entry (by simp [hgrab]))).symm

theorem Inv.cowStep {t : Vm} (ht : cowStep L s A f n = some t) : Inv L t := by
  have hfo := h.fault A f hf
  unfold Libos.cowStep at ht
  cases hpc : f.pc with
  | test =>
    simp only [hpc] at ht
    split at ht <;> cases ht
    · rename_i hone
      exact h.testGrab hf hpc hone.1
    · exact h.testAlloc hf hpc
  | grab =>
    simp only [hpc, hfo.space (by simp [hpc]), map_some] at ht
    cases ht
    exact h.grabPage hf hpc
  | alloc =>
    simp only [hpc] at ht
    split at ht <;> cases ht
    rename_i hn
    exact h.allocPage hf hpc hn
  | copy m =>
    simp only [hpc, hfo.space (by simp [hpc]), map_some] at ht
    cases ht
    exact h.copyPage hf hpc
  | insert m =>
    simp only [hpc] at ht
    cases ht
    exact h.insertPage hf hpc
  | unmap m =>
    simp only [hpc] at ht
    cases ht
    exact h.of_fault' (by simp) rfl

end

theorem Inv.exit {t : Vm} (h : Inv L s) (hpc : s.fork.pc = .done)
    (hfork : t.fork = s.fork) (hpd : t.pd = s.pd) (hdata : t.data = s.data)
    (hspace : ∀ B va, t.space B va = if B = A then none else s.space B va)
    (hfault : t.fault = update s.fault A none) : Inv L t := by
  have hnp : ∀ va, ¬s.fork.Pending va := fun va => not_pending_nil (h.ptes_done hpc)
  have himg : ∀ B va, t.img B va = if B = A then none else s.img B va := by
    intro B va
    rw [img_of_not_pending (hnp va), img_of_not_pending (by rw [hfork]; exact hnp va), hspace]
  have hsub : ∀ B va e, t.img B va = some e → s.img B va = some e := by
    intro B va e he
    rw [himg] at he
    split at he
    · cases he
    · exact he
  have htmp : ∀ B n, t.tmp B = some n → s.tmp B = some n := by
    intro B n hn
    by_cases hB : B = A
    · subst hB
      simp [Vm.tmp, hfault] at hn
    · simpa [Vm.tmp, hfault, update_of_ne hB] using hn
  refine ⟨h.sharing.weaken hsub (by simp [hfork]) htmp, ?_,
    ⟨fun B va e he => h.book.mapped B va e (hsub B va e he), ?_, ?_, ?_, ?_⟩⟩
  · intro B f hf
    have hB : B ≠ A := by
      rintro rfl
      simp [hfault] at hf
    have hfo := h.fault B f (by simpa [hfault, update_of_ne hB] using hf)
    refine ⟨fun hne => ?_, fun hg o ho => hfo.alone hg o (hsub _ _ _ ho), ?_, ?_, ?_⟩
    · rw [himg, if_neg hB]
      exact hfo.entry hne
    · rw [hdata]
      exact hfo.copied
    · rw [hfork]
      exact hfo.inserted
    · rw [hfork]
      exact hfo.late
  · intro va e he
    rw [hpd]
    exact h.book.dir va e (hsub .parent va e he)
  · intro va q hp
    rw [hfork] at hp
    exact absurd hp (hnp va)
  · rw [hfork]
    exact h.book.collected
  · have hat := h.book.at_
    simp only [Fork.At, Edge, hfork, hpd] at hat ⊢
    exact hat

end Handlers

/-! ## 7. `fork1` -/

section Steps

variable {L : Layout} {s t : Vm} {n : Nat} {e : Pte} {o : Option Pte}

/-- No handler runs while `fork1` makes a step. -/
theorem Inv.quiet (h : Inv L s) (hr : s.runs .parent = true) (hpc : s.fork.pc ≠ .done)
    (A : Side) : s.fault A = none := by
  cases A with
  | parent => exact Vm.runs_fault hr
  | child =>
    cases hf : s.fault .child with
    | none => rfl
    | some f => exact absurd ((h.fault .child f hf).late rfl) hpc

theorem Inv.of_quiet (hq : ∀ A, t.fault A = none)
    (hsh : Sharing t.img t.fork.InProt fun _ => none) (hb : Book L t) : Inv L t := by
  refine ⟨hsh.weaken (fun _ _ _ he => he) (fun _ hp => hp) ?_, ?_, hb⟩
  · intro A n hn
    simp [Vm.tmp, hq A] at hn
  · intro A f hf
    simp [hq A] at hf

theorem Inv.sharing_quiet (h : Inv L s) : Sharing s.img s.fork.InProt fun _ => none :=
  h.sharing.weaken (fun _ _ _ he => he) (fun _ hp => hp) nofun

/-- The next page of the same directory, or the beginning of one. -/
theorem edge_succ {va : Nat} {pd : Nat → Bool} (h : pd (va / dirPages) = true) :
    (va + 1) % dirPages = 0 ∨ va + 1 = 1 ∨ pd ((va + 1) / dirPages) = true := by
  by_cases hz : (va + 1) % dirPages = 0
  · exact .inl hz
  have hz' : (va + 1) % 1024 ≠ 0 := hz
  have hsame : (va + 1) / dirPages = va / dirPages := show (va + 1) / 1024 = va / 1024 by omega
  exact .inr (.inr (hsame ▸ h))

/-- `fork1` has collected an entry for the page it was at. -/
structure Collects (s t : Vm) (o : Option Pte) : Prop where
  space : ∀ B v, ¬(B = Side.child ∧ v = s.fork.va) → t.space B v = s.space B v
  start : t.fork.insertStart = s.fork.insertStart
  ptes : t.fork.ptes = s.fork.ptes ++ [o]
  va : t.fork.va = s.fork.va + 1
  pd : t.pd = s.pd
  fault : t.fault = s.fault
  source : ∀ q, o = some q →
    ∃ A d, t.space A s.fork.va = some d ∧ d.ppn = q.ppn ∧ d.shared = q.shared

theorem Collects.img (hc : Collects s t o)
    (hva : s.fork.insertStart + s.fork.ptes.length = s.fork.va) :
    t.img = setSpace s.img .child s.fork.va o :=
  img_append hva hc.space hc.start hc.ptes

theorem Collects.book (hc : Collects s t o) (h : Book L s)
    (hva : s.fork.insertStart + s.fork.ptes.length = s.fork.va) (hlt : s.fork.va < L.utop)
    (hat : Fork.At L t) : Book L t := by
  have himg := hc.img hva
  refine ⟨?_, ?_, ?_, ?_, hat⟩
  · intro B v d hd
    rw [himg] at hd
    rcases setSpace_eq_some.mp hd with ⟨⟨-, rfl⟩, -⟩ | ⟨-, hd⟩
    · exact hlt
    · exact h.mapped B v d hd
  · intro v d hd
    rw [hc.pd]
    exact h.dir v d (by rwa [hc.space _ _ (by simp)] at hd)
  · intro v q hp hq
    replace hq : setSpace s.img .child s.fork.va o .child v = some q := himg ▸ hq
    rcases setSpace_eq_some.mp hq with ⟨⟨-, rfl⟩, ho⟩ | ⟨hne, hq⟩
    · exact hc.source q ho
    have hp' : s.fork.Pending v := by
      simp only [Fork.Pending, hc.start, hc.ptes, length_append, length_singleton]
        at hp ⊢
      have : v ≠ s.fork.va := by simpa using hne
      omega
    obtain ⟨A, d, hd, hdq⟩ := h.backed v q hp' hq
    exact ⟨A, d, by rw [hc.space _ _ (by simp_all)]; exact hd, hdq⟩
  · rw [hc.start, hc.ptes, hc.va]
    simp only [length_append, length_singleton]
    omega

/-- What `fork1` knows when it looks at a page. -/
theorem Inv.at_scan (h : Inv L s) (hpc : s.fork.pc = .scan) :
    s.fork.insertStart + s.fork.ptes.length = s.fork.va ∧ Edge s ∧ s.fork.va < L.utop ∧
      (s.fork.protPgs ≠ 0 → s.fork.protStart + s.fork.protPgs = s.fork.va) := by
  have hat := h.book.at_
  simp only [Fork.At, hpc] at hat
  exact hat

theorem Inv.collect (h : Inv L s) (hr : s.runs .parent = true) (hpc : s.fork.pc = .scan)
    (hpd : s.pd (s.fork.va / dirPages) = true) (hc : Collects s t o)
    (hpc' : t.fork.pc = .protect) (hprot : ∀ v, t.fork.InProt v ↔ s.fork.InProt v)
    (hsh : Sharing (setSpace s.img .child s.fork.va o) s.fork.InProt fun _ => none) :
    Inv L t := by
  obtain ⟨hva, -, hlt, -⟩ := h.at_scan hpc
  refine Inv.of_quiet (by rw [hc.fault]; exact h.quiet hr (by simp [hpc])) ?_ ?_
  · rw [hc.img hva]
    exact hsh.weaken (fun _ _ _ he => he) (fun v => (hprot v).mpr) fun _ _ hn => hn
  refine hc.book h.book hva hlt ?_
  simp only [Fork.At, hpc', Edge, hc.va, hc.pd, hc.start, hc.ptes, length_append, length_singleton]
  exact ⟨edge_succ hpd, .inl (by omega)⟩

/-- A writable page is collected, and added to the range that is to be protected. -/
theorem Inv.collectWritable (h : Inv L s) (hr : s.runs .parent = true)
    (hpc : s.fork.pc = .scan) (hpd : s.pd (s.fork.va / dirPages) = true)
    (he : s.space .parent s.fork.va = some e) : Inv L (collectWritable s e) := by
  obtain ⟨hva, -, hlt, hcont⟩ := h.at_scan hpc
  have hc : Collects s (Libos.collectWritable s e) (some e.protect) :=
    ⟨fun _ _ _ => rfl, rfl, rfl, rfl, rfl, rfl, by
      rintro q ⟨⟩
      exact ⟨.parent, e, he, rfl, rfl⟩⟩
  have hprot : ∀ v, (Libos.collectWritable s e).fork.InProt v ↔
      s.fork.InProt v ∨ v = s.fork.va := by
    intro v
    simp only [Libos.collectWritable, Fork.InProt]
    split <;> omega
  refine Inv.of_quiet (h.quiet hr (by simp [hpc])) ?_ (hc.book h.book hva hlt ?_)
  · rw [hc.img hva]
    exact h.sharing_quiet.inherit he rfl rfl
      (fun _ => ⟨rfl, fun _ => (hprot _).mpr (.inr rfl)⟩) fun v hv => (hprot v).mpr (.inl hv)
  · simp only [Fork.At, Libos.collectWritable, Edge, length_append, length_singleton]
    exact ⟨⟨edge_succ hpd, .inl (by omega)⟩, fun _ => by split <;> omega⟩

section
variable (h : Inv L s) (hq : ∀ A, s.fault A = none) (hpd : t.pd = s.pd) (hf : t.fault = s.fault)
  (hat : Fork.At L t)
include h hq hpd hf hat

/-- `WRITE_PROTECT`. -/
theorem Inv.writeProtect (ht : t.space = (writeProtect s).space)
    (hst : t.fork.insertStart = s.fork.insertStart) (hp : t.fork.ptes = s.fork.ptes)
    (hva : t.fork.va = s.fork.va) : Inv L t := by
  have hchild : t.space .child = s.space .child := by
    rw [ht]
    funext v
    simp [Libos.writeProtect]
  have himg : t.img = fun A va =>
      if A = .parent ∧ s.fork.InProt va then (s.img A va).map Pte.protect else s.img A va := by
    funext A va
    cases A with
    | parent => simp only [Vm.img, ht, Libos.writeProtect]
    | child => simp [Vm.img, image_congr hchild hst hp]
  -- An entry keeps its page and whether it is shared.
  have hsrc : ∀ A v d, t.img A v = some d →
      ∃ d', s.img A v = some d' ∧ d'.ppn = d.ppn ∧ d'.shared = d.shared := by
    intro A v d hd
    rw [himg] at hd
    dsimp only at hd
    split at hd
    · obtain ⟨d', hd', rfl⟩ := map_eq_some_iff.mp hd
      exact ⟨d', hd', rfl, rfl⟩
    · exact ⟨d, hd, rfl, rfl⟩
  refine Inv.of_quiet (by rwa [hf]) ?_ ⟨?_, ?_, ?_, ?_, hat⟩
  · rw [himg]
    exact h.sharing_quiet.protect.weaken (fun _ _ _ he => he) nofun
      fun _ _ hn => hn
  · intro A v d hd
    obtain ⟨d', hd', -⟩ := hsrc A v d hd
    exact h.book.mapped A v d' hd'
  · intro v d hd
    obtain ⟨d', hd', -⟩ := hsrc .parent v d hd
    rw [hpd]
    exact h.book.dir v d' hd'
  · intro v q hv hq
    have hv' : s.fork.Pending v := by rwa [Fork.Pending, hst, hp] at hv
    have hq' : s.image v = some q := by rwa [image_congr hchild hst hp] at hq
    obtain ⟨A, d, hd, hdq, hds⟩ := h.book.backed v q hv' hq'
    cases A with
    | child => exact ⟨.child, d, by rw [hchild]; exact hd, hdq, hds⟩
    | parent =>
      by_cases hpr : s.fork.InProt v
      · exact ⟨.parent, d.protect, by simp [ht, Libos.writeProtect, hpr, hd], hdq, hds⟩
      · exact ⟨.parent, d, by simp [ht, Libos.writeProtect, hpr, hd], hdq, hds⟩
  · rw [hst, hp, hva]
    exact h.book.collected

variable (hprot : ∀ v, t.fork.InProt v ↔ s.fork.InProt v)
include hprot

/-- A step that changes nothing of what the two have. -/
theorem Inv.sameImg (himg : t.img = s.img)
    (hback : ∀ va q, t.fork.Pending va → t.image va = some q →
      ∃ A e, t.space A va = some e ∧ e.ppn = q.ppn ∧ e.shared = q.shared)
    (hcol : t.fork.insertStart + t.fork.ptes.length ≤ t.fork.va) : Inv L t := by
  have hparent : t.space .parent = s.space .parent := congrFun himg .parent
  refine Inv.of_quiet (by rwa [hf]) ?_ ⟨?_, ?_, hback, hcol, hat⟩
  · rw [himg]
    exact h.sharing_quiet.weaken (fun _ _ _ he => he) (fun v => (hprot v).mpr) fun _ _ hn => hn
  · rw [himg]
    exact h.book.mapped
  · rw [hparent, hpd]
    exact h.book.dir

theorem Inv.insertBatch (ht : t.space = (insertBatch s).space) (hp : t.fork.ptes = [])
    (hst : t.fork.insertStart ≤ t.fork.va) : Inv L t := by
  refine h.sameImg hq hpd hf hat hprot (img_insertBatch ht hp) ?_ ?_
  · exact fun v q hv => absurd hv (not_pending_nil hp)
  · simpa [hp] using hst

theorem Inv.goto (hs : t.space = s.space) (hst : t.fork.insertStart = s.fork.insertStart)
    (hp : t.fork.ptes = s.fork.ptes) (hva : s.fork.va ≤ t.fork.va) : Inv L t := by
  have himage : t.image = s.image := image_congr (by rw [hs]) hst hp
  have himg : t.img = s.img := by
    funext A
    cases A with
    | parent => simp only [Vm.img, hs]
    | child => exact himage
  refine h.sameImg hq hpd hf hat hprot himg ?_ ?_
  · intro v q hv
    rw [himage, hs]
    exact h.book.backed v q (by rwa [Fork.Pending, hst, hp] at hv)
  · rw [hst, hp]
    exact Nat.le_trans h.book.collected hva

end

theorem collect_collects (hsrc : ∀ q, o = some q →
    ∃ A d, s.space A s.fork.va = some d ∧ d.ppn = q.ppn ∧ d.shared = q.shared) :
    Collects s (collect s o) o :=
  ⟨fun _ _ _ => rfl, rfl, rfl, rfl, rfl, rfl, hsrc⟩

/-- A page that is there, in the order of the tests of `fork1`. -/
theorem Inv.scanPage (h : Inv L s) (hr : s.runs .parent = true) (hpc : s.fork.pc = .scan)
    (hpd : s.pd (s.fork.va / dirPages) = true) (he : s.space .parent s.fork.va = some e)
    (ht : scanPage L s e n = some t) : Inv L t := by
  obtain ⟨hva, -, hlt, -⟩ := h.at_scan hpc
  -- The child inherits an entry as it is.
  have hinherit : (e.shared = false → e.w = false) → Inv L (Libos.collect s (some e)) := by
    intro hw
    refine h.collect hr hpc hpd (collect_collects ?_) rfl (fun _ => Iff.rfl) ?_
    · rintro q ⟨⟩
      exact ⟨.parent, e, he, rfl, rfl⟩
    · exact h.sharing_quiet.inherit he rfl rfl
        (fun hs => ⟨hw hs, by simp [hw hs]⟩) fun _ hv => hv
  unfold Libos.scanPage at ht
  split at ht
  · rename_i hsh
    cases ht
    exact hinherit (by simp [hsh])
  rename_i hsh
  replace hsh : e.shared = false := by simpa using hsh
  split at ht
  · -- A page of the stack
    split at ht <;> cases ht
    rename_i hn
    refine h.collect (o := some { e with ppn := n }) hr hpc hpd ?_ rfl (fun _ => Iff.rfl) ?_
    · refine ⟨fun B v hne => setSpace_of_ne hne, rfl, rfl, rfl, rfl, rfl, ?_⟩
      rintro q ⟨⟩
      exact ⟨.child, _, setSpace_self, rfl, rfl⟩
    · exact h.sharing_quiet.map (fun B v d hd => h.free hn hd) nofun
  split at ht
  · -- The u-area
    cases ht
    refine h.collect hr hpc hpd (collect_collects ?_) rfl (fun _ => Iff.rfl) ?_
    · intro q hq
      exact ⟨.child, q, hq, rfl, rfl⟩
    refine h.sharing_quiet.weaken ?_ (fun _ hp => hp) fun _ _ hn => hn
    intro B v d hd
    rcases setSpace_eq_some.mp hd with ⟨⟨rfl, rfl⟩, hq⟩ | ⟨-, hd⟩
    · rwa [img_of_not_pending]
      unfold Fork.Pending
      omega
    · exact hd
  split at ht
  · cases ht
    exact h.collectWritable hr hpc hpd he
  rename_i hw
  cases ht
  exact hinherit fun _ => by simpa using hw

theorem Inv.forkStep (h : Inv L s) (hr : s.runs .parent = true)
    (ht : forkStep L s n = some t) : Inv L t := by
  have hcol := h.book.collected
  have hat := h.book.at_
  unfold Libos.forkStep at ht
  cases hpc : s.fork.pc with
  | top =>
    have hq := h.quiet hr (by simp [hpc])
    simp only [Fork.At, hpc] at hat
    obtain ⟨⟨hedge, hnext⟩, hcont⟩ := hat
    simp only [hpc] at ht
    split at ht
    · rename_i hlt
      split at ht <;> cases ht
      · exact h.insertBatch hq rfl rfl ⟨by simp [Libos.insertBatch], hedge, hlt, hcont⟩
          (fun _ => Iff.rfl) rfl rfl (Nat.le_refl _)
      refine h.goto hq rfl rfl ⟨?_, hedge, hlt, hcont⟩ (fun _ => Iff.rfl) rfl rfl rfl
        (Nat.le_refl _)
      dsimp only
      omega
    · rename_i hlt
      cases ht
      exact h.goto hq rfl rfl (Nat.le_of_not_lt hlt) (fun _ => Iff.rfl) rfl rfl rfl (Nat.le_refl _)
  | scan =>
    have hq := h.quiet hr (by simp [hpc])
    obtain ⟨hva, hedge, hlt, -⟩ := h.at_scan hpc
    simp only [hpc] at ht
    split at ht
    · -- A directory that is not there is met at its beginning, so that a batch is skipped.
      rename_i hpd
      cases ht
      have hskip : s.fork.va + 1023 ≤ (s.fork.va / 1024 + 1) * 1024 := by
        have hbegin : s.fork.va % 1024 = 0 ∨ s.fork.va = 1 := by
          unfold Edge at hedge
          simpa [hpd] using hedge
        omega
      refine h.goto hq rfl rfl ⟨.inl ?_, .inr ?_⟩ (fun _ => Iff.rfl) rfl rfl rfl ?_
      · show (s.fork.va / 1024 + 1) * 1024 % 1024 = 0
        omega
      · show s.fork.insertStart + 128 ≤ (s.fork.va / 1024 + 1) * 1024
        omega
      · show s.fork.va ≤ (s.fork.va / 1024 + 1) * 1024
        omega
    · rename_i hpd
      replace hpd : s.pd (s.fork.va / dirPages) = true := by simpa using hpd
      split at ht
      · cases ht
        refine h.collect hr hpc hpd (collect_collects nofun) rfl (fun _ => Iff.rfl) ?_
        refine h.sharing_quiet.weaken ?_ (fun _ hp => hp) fun _ _ hn => hn
        intro B v d hd
        rcases setSpace_eq_some.mp hd with ⟨-, hd⟩ | ⟨-, hd⟩
        · cases hd
        · exact hd
      · rename_i e he
        exact h.scanPage hr hpc hpd he ht
  | protect =>
    simp only [Fork.At, hpc] at hat ht
    cases ht
    exact h.writeProtect (h.quiet hr (by simp [hpc])) rfl rfl ⟨hat, fun hne => absurd rfl hne⟩
      rfl rfl rfl rfl
  | endProtect =>
    simp only [Fork.At, hpc] at hat ht
    cases ht
    exact h.writeProtect (h.quiet hr (by simp [hpc])) rfl rfl ⟨hat, rfl⟩ rfl rfl rfl rfl
  | endInsert =>
    simp only [Fork.At, hpc] at hat ht
    cases ht
    refine h.insertBatch (h.quiet hr (by simp [hpc])) rfl rfl ⟨hat.1, hat.2, rfl⟩
      (fun _ => Iff.rfl) rfl rfl ?_
    exact Nat.le_trans (Nat.le_add_right _ _) hcol
  | ready =>
    simp only [Fork.At, hpc] at hat ht
    cases ht
    exact h.goto (h.quiet hr (by simp [hpc])) rfl rfl hat.2 (fun _ => Iff.rfl) rfl rfl rfl
      (Nat.le_refl _)
  | done =>
    simp only [hpc] at ht
    cases ht

end Steps

/-! ## 8. Any action -/

/-- **The parent takes no copy-on-write fault on a page whose entry is collected and not yet
    inserted.** -/
def VmAct.Ok (s : Vm) : VmAct → Prop
  | .fault .parent va => ¬s.fork.Pending va
  | _ => True

theorem Inv.exec {L : Layout} {s t : Vm} {a : VmAct} (h : Inv L s) (hok : a.Ok s)
    (ht : vmExec L s a = some t) : Inv L t := by
  cases a with
  | fork n =>
    simp only [vmExec] at ht
    split at ht
    · rename_i hr
      exact h.forkStep hr ht
    · cases ht
  | store A va off b =>
    simp only [vmExec] at ht
    split at ht
    · rename_i e he
      split at ht <;> cases ht
      rename_i hr
      exact h.store hr.1 he hr.2
    · cases ht
  | fault A va =>
    simp only [vmExec] at ht
    split at ht
    · rename_i e he
      split at ht <;> cases ht
      rename_i hr
      refine h.startFault hr.1 he ?_
      cases A with
      | parent => exact hok
      | child => exact not_pending_nil (h.ptes_done (Vm.runs_child hr.1))
    · cases ht
  | cow A n =>
    obtain ⟨f, hf, ht⟩ := bind_eq_some_iff.mp ht
    exact h.cowStep hf ht
  | exit A =>
    simp only [vmExec] at ht
    split at ht <;> cases ht
    rename_i hpc
    exact h.exit hpc rfl rfl rfl (fun _ _ => rfl) rfl
  | otherStore p off b =>
    simp only [vmExec] at ht
    split at ht <;> cases ht
    rename_i hp
    exact h.otherStore (by simpa using hp)
  | otherRefs p k =>
    cases ht
    exact h.of_data fun A f n hf => (h.fault A f hf).copied n

end Exokernel.Libos
