import Exokernel.Proof.Fork

/-!
# Fork isolates — parent and child from the call on

**What a process finds in a private page are its own stores**, over what it found there when
`fork1` returned; and what the child finds there is what the parent had at some moment of the
call. Both hold in every interleaving in which the parent does not take a fault on a page
between the moment its entry is collected and the moment the entry is inserted.

Otherwise the count of the page is still one, and the handler gives the page back to the parent
although the child is going to get it.
-/
set_option autoImplicit false

namespace Exokernel.Libos

open Function Option

/-! ## 1. The call -/

/-- `fork1` begins: no private page of the parent is mapped twice, and the child has a u-area
    and nothing else. -/
structure ForkStart (L : Layout) (s : Vm) : Prop where
  begins : s.fork = ⟨1, 1, [], 0, 0, .top⟩
  quiet : ∀ A, s.fault A = none
  mapped : ∀ A va e, s.space A va = some e → va < L.utop
  dir : ∀ va e, s.space .parent va = some e → s.pd (va / dirPages) = true
  once : ∀ va e v d, s.space .parent va = some e → e.shared = false →
    s.space .parent v = some d → d.ppn = e.ppn → v = va
  uarea : ∀ va c, s.space .child va = some c → va = L.uaddr ∧ c.shared = false ∧
    ∀ v d, s.space .parent v = some d → d.ppn ≠ c.ppn

variable {L : Layout} {va : Nat}

theorem ForkStart.sharing {s : Vm} (h : ForkStart L s) :
    Sharing s.space s.fork.InProt fun _ => none := by
  refine ⟨?_, ?_, nofun, nofun⟩
  · intro A va e B v d he hs hd heq
    cases A <;> cases B
    · obtain rfl := h.once va e v d he hs hd heq
      cases he.symm.trans hd
      exact ⟨rfl, hs⟩
    · exact absurd heq.symm ((h.uarea v d hd).2.2 va e he)
    · exact absurd heq ((h.uarea va e he).2.2 v d hd)
    · exact ⟨(h.uarea v d hd).1.trans (h.uarea va e he).1.symm, (h.uarea v d hd).2.1⟩
  · intro va a c ha hc _ heq
    exact absurd heq ((h.uarea va c hc).2.2 va a ha)

theorem ForkStart.inv {s : Vm} (h : ForkStart L s) : Inv L s := by
  have hp : s.fork.ptes = [] := by rw [h.begins]
  have himg : s.img = s.space := by
    funext A va
    exact img_of_not_pending (not_pending_nil hp)
  refine Inv.of_quiet h.quiet (himg ▸ h.sharing) ⟨?_, h.dir, ?_, ?_, ?_⟩
  · rw [himg]
    exact h.mapped
  · exact fun va q hv => absurd hv (not_pending_nil hp)
  · simp [h.begins]
  · simp [Fork.At, Edge, h.begins]

/-- Some moment at which the parent had these contents at an address. -/
def Moment (H : List Vm) (va : Nat) (c : Contents) : Prop :=
  ∃ u ∈ H, ∃ e, u.space .parent va = some e ∧ u.data e.ppn = c

/-- Pages that the child is to have as the parent had them. -/
def Layout.normal (L : Layout) (va : Nat) : Prop := L.stack va = false ∧ va ≠ L.uaddr

/-- The child has the pages that `fork1` has passed. -/
def Inherited (L : Layout) (s : Vm) (H : List Vm) : Prop :=
  s.fork.pc ≠ .done → ∀ va e, va < s.fork.va → L.normal va →
    s.space .parent va = some e → e.shared = false →
    ∃ c, s.image va = some c ∧ c.shared = false ∧ Moment (s :: H) va (s.data c.ppn)

theorem Moment.mono {H H' : List Vm} {c : Contents} (h : Moment H va c)
    (hH : ∀ u ∈ H, u ∈ H') : Moment H' va c := by
  obtain ⟨u, hu, he⟩ := h
  exact ⟨u, hH u hu, he⟩

theorem Moment.later {t : Vm} {H : List Vm} {c : Contents} (h : Moment H va c) :
    Moment (t :: H) va c :=
  h.mono fun _ hu => List.mem_cons_of_mem _ hu

section Inherited

variable {L : Layout} {s t : Vm} {H : List Vm}

/-- The parent's private pages are pages that it had. -/
def KeepsPrivate (s t : Vm) : Prop :=
  ∀ va e, t.space .parent va = some e → e.shared = false →
    ∃ d, s.space .parent va = some d ∧ d.shared = false

theorem KeepsPrivate.of_eq (h : t.space .parent = s.space .parent) : KeepsPrivate s t :=
  fun _ e he hsh => ⟨e, h ▸ he, hsh⟩

/-- A step that keeps what the child has, and the contents of its private pages or what the
    parent has in them. -/
theorem Inherited.keep (h : Inherited L s H) (hpc : s.fork.pc = .done → t.fork.pc = .done)
    (hva : ∀ va e, t.space .parent va = some e → va < t.fork.va → va < s.fork.va)
    (himg : t.image = s.image) (hparent : KeepsPrivate s t)
    (hdata : ∀ va c, s.image va = some c → c.shared = false →
      t.data c.ppn = s.data c.ppn ∨
        ∃ e, t.space .parent va = some e ∧ e.ppn = c.ppn) :
    Inherited L t (s :: H) := by
  intro hdone va e hhi hn he hsh
  obtain ⟨d, hd, hds⟩ := hparent va e he hsh
  obtain ⟨c, hc, hcs, hm⟩ := h (fun hs => hdone (hpc hs)) va d (hva va e he hhi) hn hd hds
  refine ⟨c, by rwa [himg], hcs, ?_⟩
  rcases hdata va c hc hcs with hsame | ⟨x, hx, hxc⟩
  · rw [hsame]
    exact hm.later
  · exact ⟨t, by simp, x, hx, by rw [hxc]⟩

theorem Inherited.stay (h : Inherited L s H) (hfork : t.fork = s.fork) (hspace : t.space = s.space)
    (hdata : ∀ va c, s.image va = some c → c.shared = false →
      t.data c.ppn = s.data c.ppn ∨
        ∃ e, s.space .parent va = some e ∧ e.ppn = c.ppn) :
    Inherited L t (s :: H) := by
  refine h.keep ?_ ?_ (image_congr ?_ ?_ ?_) (.of_eq ?_) ?_
  all_goals simp only [hfork, hspace]
  · exact id
  · exact fun _ _ _ hlt => hlt
  · exact hdata

theorem Inherited.of_done (hpc : t.fork.pc = .done) : Inherited L t H :=
  fun hne => absurd hpc hne

theorem Inherited.collects {o : Option Pte} (h : Inherited L s H) (hpc : s.fork.pc = .scan)
    (hva : s.fork.insertStart + s.fork.ptes.length = s.fork.va) (hc : Collects s t o)
    (hdata : ∀ va c, s.image va = some c → t.data c.ppn = s.data c.ppn)
    (hnew : ∀ e, L.normal s.fork.va → s.space .parent s.fork.va = some e → e.shared = false →
      ∃ c, o = some c ∧ c.shared = false ∧ c.ppn = e.ppn) :
    Inherited L t (s :: H) := by
  intro _ va e hlt hn he hsh
  have himg : t.image = setSpace s.img .child s.fork.va o .child := congrFun (hc.img hva) .child
  have he' : s.space .parent va = some e := by rwa [hc.space _ _ (by simp)] at he
  by_cases hv : va = s.fork.va
  · subst hv
    obtain ⟨c, rfl, hcs, hcp⟩ := hnew e hn he' hsh
    exact ⟨c, by rw [himg, setSpace_self], hcs, t, by simp, e, he, by rw [hcp]⟩
  rw [hc.va] at hlt
  obtain ⟨c, hcv, hcs, hm⟩ := h (by simp [hpc]) va e (by omega) hn he' hsh
  refine ⟨c, ?_, hcs, ?_⟩
  · rw [himg, setSpace_of_ne (by simp [hv])]
    exact hcv
  · rw [hdata va c hcv]
    exact hm.later

variable {e : Pte} {n : Nat}

theorem Inherited.scanPage (h : Inherited L s H) (hi : Inv L s)
    (hpc : s.fork.pc = .scan) (he : s.space .parent s.fork.va = some e)
    (ht : scanPage L s e n = some t) : Inherited L t (s :: H) := by
  obtain ⟨hva, -, -, -⟩ := hi.at_scan hpc
  have hkeep : Inherited L (collect s (some e)) (s :: H) := by
    refine h.collects hpc hva (collect_collects ?_) (fun _ _ _ => rfl) ?_
    · rintro q ⟨⟩
      exact ⟨.parent, e, he, rfl, rfl⟩
    intro d _ hd hds
    cases he.symm.trans hd
    exact ⟨e, rfl, hds, rfl⟩
  unfold Libos.scanPage at ht
  split at ht
  · cases ht
    exact hkeep
  split at ht
  · rename_i hstack
    split at ht <;> cases ht
    rename_i hn
    refine h.collects (o := some { e with ppn := n }) hpc hva ?_ ?_ ?_
    · refine ⟨fun B v hne => setSpace_of_ne hne, rfl, rfl, rfl, rfl, rfl, ?_⟩
      rintro q ⟨⟩
      exact ⟨.child, _, setSpace_self, rfl, rfl⟩
    · intro v c hc
      exact update_of_ne (hi.free hn (show s.img .child v = some c from hc)) _ _
    · intro d hnormal
      simp [hnormal.1] at hstack
  split at ht
  · rename_i hu
    cases ht
    refine h.collects hpc hva (collect_collects ?_) (fun _ _ _ => rfl) ?_
    · intro q hq
      exact ⟨.child, q, hq, rfl, rfl⟩
    · intro d hnormal
      exact absurd hu hnormal.2
  split at ht
  · cases ht
    refine h.collects (o := some e.protect) hpc hva ?_ (fun _ _ _ => rfl) ?_
    · refine ⟨fun _ _ _ => rfl, rfl, rfl, rfl, rfl, rfl, ?_⟩
      rintro q ⟨⟩
      exact ⟨.parent, e, he, rfl, rfl⟩
    intro d _ hd hds
    cases he.symm.trans hd
    exact ⟨e.protect, rfl, hds, rfl⟩
  · cases ht
    exact hkeep

theorem writeProtect_parent : KeepsPrivate s (writeProtect s) := by
  intro va e he hsh
  simp only [writeProtect] at he
  split at he
  · obtain ⟨d, hd, rfl⟩ := map_eq_some_iff.mp he
    exact ⟨d, hd, hsh⟩
  · exact ⟨e, he, hsh⟩

theorem image_insertBatch (hs : t.space = (insertBatch s).space) (hp : t.fork.ptes = []) :
    t.image = s.image :=
  congrFun (img_insertBatch hs hp) .child

theorem Inherited.forkStep (h : Inherited L s H) (hi : Inv L s)
    (ht : forkStep L s n = some t) : Inherited L t (s :: H) := by
  unfold Libos.forkStep at ht
  cases hpc : s.fork.pc with
  | top =>
    simp only [hpc] at ht
    split at ht
    · split at ht <;> cases ht
      · exact h.keep (by simp [hpc]) (fun _ _ _ hlt => hlt) (image_insertBatch rfl rfl)
          (.of_eq rfl) fun _ _ _ _ => .inl rfl
      · exact h.keep (by simp [hpc]) (fun _ _ _ hlt => hlt) (image_congr rfl rfl rfl)
          (.of_eq rfl) fun _ _ _ _ => .inl rfl
    · cases ht
      exact h.keep (by simp [hpc]) (fun _ _ _ hlt => hlt) (image_congr rfl rfl rfl)
        (.of_eq rfl) fun _ _ _ _ => .inl rfl
  | scan =>
    obtain ⟨hva, -, -, -⟩ := hi.at_scan hpc
    simp only [hpc] at ht
    split at ht
    · -- Nothing is mapped behind a directory that is not there.
      rename_i hpd
      cases ht
      refine h.keep (by simp [hpc]) ?_ (image_congr rfl rfl rfl) (.of_eq rfl)
        fun _ _ _ _ => .inl rfl
      intro va e he hlt
      by_contra hge
      have hdir := hi.book.dir va e he
      have hsame : va / dirPages = s.fork.va / dirPages := by
        replace hlt : va < (s.fork.va / 1024 + 1) * 1024 := hlt
        show va / 1024 = s.fork.va / 1024
        omega
      rw [hsame, hpd] at hdir
      cases hdir
    · split at ht
      · rename_i hnone
        cases ht
        refine h.collects hpc hva (collect_collects nofun) (fun _ _ _ => rfl) ?_
        intro e _ he
        rw [hnone] at he
        cases he
      · rename_i e he
        exact h.scanPage hi hpc he ht
  | protect | endProtect =>
    simp only [hpc] at ht
    cases ht
    refine h.keep (by simp [hpc]) (fun _ _ _ hlt => hlt) (image_congr ?_ rfl rfl)
      writeProtect_parent fun _ _ _ _ => .inl rfl
    funext va
    simp [writeProtect]
  | endInsert =>
    simp only [hpc] at ht
    cases ht
    exact h.keep (by simp [hpc]) (fun _ _ _ hlt => hlt) (image_insertBatch rfl rfl)
      (.of_eq rfl) fun _ _ _ _ => .inl rfl
  | ready =>
    simp only [hpc] at ht
    cases ht
    exact .of_done rfl
  | done =>
    simp only [hpc] at ht
    cases ht

/-- A step of a handler writes to its own new page at most, or changes the entry it is about. -/
theorem Inv.cowStep_cases {B : Side} {f : CowFault} (h : Inv L s) (hf : s.fault B = some f)
    (ht : Libos.cowStep L s B f n = some t) :
    t.fork = s.fork ∧ ((t.space = s.space ∧ ∀ p, s.tmp B ≠ some p → t.data p = s.data p) ∨
      ∃ d, d.shared = f.pte.shared ∧ s.space B f.va = some f.pte ∧
        (d.shared = false → s.data d.ppn = s.data f.pte.ppn) ∧ t.data = s.data ∧
        t.space = setSpace s.space B f.va (some d)) := by
  have hfo := h.fault B f hf
  unfold Libos.cowStep at ht
  cases hpc : f.pc with
  | test =>
    simp only [hpc] at ht
    split at ht <;> cases ht <;> exact ⟨rfl, .inl ⟨rfl, fun _ _ => rfl⟩⟩
  | grab =>
    have hold := hfo.space (by simp [hpc])
    simp only [hpc, hold, map_some] at ht
    cases ht
    exact ⟨rfl, .inr ⟨f.pte.uncow, rfl, hold, fun _ => rfl, rfl, rfl⟩⟩
  | alloc =>
    simp only [hpc] at ht
    split at ht <;> cases ht
    exact ⟨rfl, .inl ⟨rfl, fun _ _ => rfl⟩⟩
  | copy m =>
    simp only [hpc, hfo.space (by simp [hpc]), map_some] at ht
    cases ht
    have htmp : s.tmp B = some m := by simp [Vm.tmp, hf, hpc, CowPc.reserved]
    refine ⟨rfl, .inl ⟨rfl, fun p hp => update_of_ne ?_ _ _⟩⟩
    rintro rfl
    exact hp htmp
  | insert m =>
    simp only [hpc] at ht
    cases ht
    exact ⟨rfl, .inr ⟨{ f.pte with ppn := m }.uncow, rfl, hfo.space (by simp [hpc]),
      hfo.copied m hpc, rfl, rfl⟩⟩
  | unmap m =>
    simp only [hpc] at ht
    cases ht
    exact ⟨rfl, .inl ⟨rfl, fun _ _ => rfl⟩⟩

theorem forkStep_done (hpc : s.fork.pc = .done) : forkStep L s n = none := by
  simp only [forkStep, hpc]

theorem Inherited.store {A : Side} {va off : Nat} {b : BitVec 8}
    (h : Inherited L s H) (hi : Inv L s) (hr : s.runs A = true) (he : s.space A va = some e) :
    Inherited L (storeByte s e.ppn off b) (s :: H) := by
  cases A with
  | child => exact .of_done (Vm.runs_child hr)
  | parent =>
    refine h.stay rfl rfl fun v c hc hcs => ?_
    by_cases heq : c.ppn = e.ppn
    · -- The child's page is the one that is written: it is at the same address.
      have hone := hi.sharing.once .child v c .parent va e hc hcs he heq.symm
      exact .inr ⟨e, by rw [← hone.1]; exact he, heq.symm⟩
    · exact .inl (update_of_ne heq _ _)

/-- A handler of the parent changes only its own entry. -/
theorem Inherited.cowStep {A : Side} {f : CowFault} (h : Inherited L s H)
    (hi : Inv L s) (hf : s.fault A = some f) (ht : cowStep L s A f n = some t) :
    Inherited L t (s :: H) := by
  obtain ⟨hfork, hstep⟩ := hi.cowStep_cases hf ht
  cases A with
  | child =>
    -- The child runs only when the call is over.
    exact .of_done (hfork ▸ (hi.fault .child f hf).late rfl)
  | parent =>
    rcases hstep with ⟨hspace, hdata⟩ | ⟨d, hd, hold, -, hdata, hspace⟩
    · exact h.stay hfork hspace fun v c hc _ => .inl (hdata _ fun htmp =>
        hi.sharing.fresh .parent _ htmp .child v c hc rfl)
    refine h.keep (hfork ▸ id) (fun _ _ _ hlt => hfork ▸ hlt)
      (image_congr ?_ (by rw [hfork]) (by rw [hfork])) (fun va e he hsh => ?_)
      fun _ _ _ _ => .inl (by rw [hdata])
    · rw [hspace]
      funext va
      exact setSpace_of_ne (by simp)
    · rw [hspace] at he
      rcases setSpace_eq_some.mp he with ⟨⟨-, rfl⟩, hnew⟩ | ⟨-, he⟩
      · cases hnew
        exact ⟨f.pte, hold, hd.symm.trans hsh⟩
      · exact ⟨e, he, hsh⟩

theorem Inherited.exec {a : VmAct} (h : Inherited L s H) (hi : Inv L s)
    (ht : vmExec L s a = some t) : Inherited L t (s :: H) := by
  cases a with
  | fork n =>
    simp only [vmExec] at ht
    split at ht
    · exact h.forkStep hi ht
    · cases ht
  | store A va off b =>
    simp only [vmExec] at ht
    split at ht
    · rename_i e he
      split at ht <;> cases ht
      rename_i hr
      exact h.store hi hr.1 he
    · cases ht
  | fault A va =>
    simp only [vmExec] at ht
    split at ht
    · split at ht <;> cases ht
      exact h.stay rfl rfl fun _ _ _ _ => .inl rfl
    · cases ht
  | cow A n =>
    obtain ⟨f, hf, ht⟩ := bind_eq_some_iff.mp ht
    exact h.cowStep hi hf ht
  | exit A =>
    simp only [vmExec] at ht
    split at ht <;> cases ht
    rename_i hpc
    exact .of_done hpc
  | otherStore p off b =>
    simp only [vmExec] at ht
    split at ht <;> cases ht
    rename_i hp
    refine h.stay rfl rfl fun v c hc hcs => .inl (update_of_ne ?_ _ _)
    rintro rfl
    exact hp (hi.priv (A := .child) hc hcs)
  | otherRefs p k =>
    cases ht
    exact h.stay rfl rfl fun _ _ _ _ => .inl rfl

end Inherited

/-! ## 2. Afterwards -/

/-- What a store of `A` does to the contents of its page at `va`. -/
def applyStore (A : Side) (va : Nat) (c : Contents) : VmAct → Contents
  | .store B v off b => if B = A ∧ v = va then update c off b else c
  | _ => c

section After

variable {L : Layout} {s t : Vm} {A B : Side} {va n : Nat} {e : Pte} {f : CowFault}

/-- A private page is what it was, whoever's handler makes a step. -/
theorem Inv.cow_isolated (h : Inv L s) (hf : s.fault B = some f)
    (ht : Libos.cowStep L s B f n = some t) (he : t.space A va = some e)
    (hsh : e.shared = false) (hnp : ¬s.fork.Pending va) :
    ∃ d, s.space A va = some d ∧ d.shared = false ∧ t.data e.ppn = s.data d.ppn := by
  obtain ⟨-, ⟨hspace, hdata⟩ | ⟨d, hd, hold, hcopied, hdata, hspace⟩⟩ := h.cowStep_cases hf ht
  · rw [hspace] at he
    refine ⟨e, he, hsh, hdata _ fun htmp => ?_⟩
    exact h.sharing.fresh B _ htmp A va e (by rw [img_of_not_pending hnp]; exact he) rfl
  rw [hspace] at he
  rw [hdata]
  rcases setSpace_eq_some.mp he with ⟨⟨rfl, rfl⟩, hnew⟩ | ⟨-, he⟩
  · cases hnew
    exact ⟨f.pte, hold, hd.symm.trans hsh, hcopied hsh⟩
  · exact ⟨e, he, hsh, rfl⟩

/-- A store changes a private page only if it is a store of its owner to it. -/
theorem Inv.store_isolated {v off : Nat} {b : BitVec 8} {x : Pte} (h : Inv L s)
    (hpc : s.fork.pc = .done) (hr : s.runs B = true) (hx : s.space B v = some x)
    (hw : x.w = true) (he : s.space A va = some e) (hsh : e.shared = false) :
    (storeByte s x.ppn off b).data e.ppn =
      applyStore A va (s.data e.ppn) (.store B v off b) := by
  have himg : ∀ A va, s.img A va = s.space A va := fun A va =>
    img_of_not_pending (not_pending_nil (h.ptes_done hpc))
  have hother : e.ppn ≠ x.ppn → (storeByte s x.ppn off b).data e.ppn = s.data e.ppn :=
    fun hne => update_of_ne hne _ _
  by_cases hB : B = A
  · subst hB
    by_cases hv : v = va
    · subst hv
      cases he.symm.trans hx
      simp [storeByte, applyStore]
    have hne : e.ppn ≠ x.ppn := by
      intro heq
      exact hv (h.sharing.once B va e B v x (by rwa [himg]) hsh (by rwa [himg]) heq.symm).1
    simp [applyStore, hv, hother hne]
  · obtain rfl : A = B.other := by cases A <;> cases B <;> simp_all [Side.other]
    have hne : e.ppn ≠ x.ppn :=
      h.store_unseen hr hx hw (fun _ => hpc) (by rwa [himg]) (.inr hsh)
    simp [applyStore, hB, hother hne]

/-- **One action after the call**: a private page changes by the stores of its owner alone. -/
theorem Inv.isolated {a : VmAct} (h : Inv L s) (hpc : s.fork.pc = .done)
    (ht : vmExec L s a = some t) (he : t.space A va = some e) (hsh : e.shared = false) :
    ∃ d, s.space A va = some d ∧ d.shared = false ∧
      t.data e.ppn = applyStore A va (s.data d.ppn) a := by
  have hnp : ¬s.fork.Pending va := not_pending_nil (h.ptes_done hpc)
  cases a with
  | fork n =>
    simp only [vmExec, forkStep_done hpc] at ht
    split at ht <;> cases ht
  | store B v off b =>
    simp only [vmExec] at ht
    split at ht
    · rename_i x hx
      split at ht <;> cases ht
      rename_i hr
      exact ⟨e, he, hsh, h.store_isolated hpc hr.1 hx hr.2 he hsh⟩
    · cases ht
  | fault B v =>
    simp only [vmExec] at ht
    split at ht
    · split at ht <;> cases ht
      exact ⟨e, he, hsh, rfl⟩
    · cases ht
  | cow B n =>
    obtain ⟨f, hf, ht⟩ := bind_eq_some_iff.mp ht
    exact h.cow_isolated hf ht he hsh hnp
  | exit B =>
    simp only [vmExec, if_pos hpc] at ht
    cases ht
    dsimp only at he
    split at he
    · cases he
    · exact ⟨e, he, hsh, rfl⟩
  | otherStore p off b =>
    simp only [vmExec] at ht
    split at ht <;> cases ht
    rename_i hp
    refine ⟨e, he, hsh, update_of_ne ?_ _ _⟩
    rintro rfl
    exact hp (h.priv (A := A) (by rw [img_of_not_pending hnp]; exact he) hsh)
  | otherRefs p k =>
    cases ht
    exact ⟨e, he, hsh, rfl⟩

theorem Inv.exec_done {a : VmAct} (h : Inv L s) (hpc : s.fork.pc = .done)
    (ht : vmExec L s a = some t) : t.fork.pc = .done := by
  cases a with
  | fork n =>
    simp only [vmExec, forkStep_done hpc] at ht
    split at ht <;> cases ht
  | cow B n =>
    obtain ⟨f, hf, ht⟩ := bind_eq_some_iff.mp ht
    rwa [(h.cowStep_cases hf ht).1]
  | store | fault | exit | otherStore | otherRefs =>
    -- the other actions do not touch the call
    simp only [vmExec] at ht
    repeat' split at ht
    all_goals cases ht
    all_goals exact hpc

theorem Inv.ok_done {a : VmAct} (h : Inv L s) (hpc : s.fork.pc = .done) : a.Ok s := by
  cases a with
  | fault B v =>
    cases B with
    | parent => exact not_pending_nil (h.ptes_done hpc)
    | child => trivial
  | _ => trivial

theorem Inv.run_isolated {acts : List VmAct} (h : Inv L s) (hpc : s.fork.pc = .done)
    (ht : Run.execAll (vmExec L) acts s = some t) :
    Inv L t ∧ t.fork.pc = .done ∧ ∀ A va e, t.space A va = some e → e.shared = false →
      ∃ d, s.space A va = some d ∧ d.shared = false ∧
        t.data e.ppn = acts.foldl (applyStore A va) (s.data d.ppn) := by
  induction acts generalizing s with
  | nil =>
    cases ht
    exact ⟨h, hpc, fun A va e he hsh => ⟨e, he, hsh, rfl⟩⟩
  | cons a acts ih =>
    obtain ⟨u, hu, ht⟩ := bind_eq_some_iff.mp ht
    obtain ⟨hinv, hdone, hview⟩ := ih (h.exec (h.ok_done hpc) hu) (h.exec_done hpc hu) ht
    refine ⟨hinv, hdone, fun A va e he hsh => ?_⟩
    obtain ⟨d, hd, hds, hdata⟩ := hview A va e he hsh
    obtain ⟨c, hc, hcs, hcd⟩ := h.isolated hpc hu hd hds
    exact ⟨c, hc, hcs, by rw [hdata, hcd, List.foldl_cons]⟩

end After

/-! ## 3. The whole run -/

/-- In any run from here, a process finds its own stores in its private pages and no others,
    and its stores to them are in no page that the other has. -/
structure Isolated (L : Layout) (t : Vm) : Prop where
  own : ∀ acts u, Run.execAll (vmExec L) acts t = some u → ∀ A va e, u.space A va = some e →
    e.shared = false → ∃ d, t.space A va = some d ∧ d.shared = false ∧
      u.data e.ppn = acts.foldl (applyStore A va) (t.data d.ppn)
  unseen : ∀ acts u, Run.execAll (vmExec L) acts t = some u → ∀ A va e off b u',
    u.space A va = some e → e.shared = false → vmExec L u (.store A va off b) = some u' →
    ∀ v d, u'.space A.other v = some d → u'.data d.ppn = u.data d.ppn

theorem Inv.done_isolated {t : Vm} (h : Inv L t) (hpc : t.fork.pc = .done) :
    Isolated L t where
  own acts u hu := (h.run_isolated hpc hu).2.2
  unseen acts u hu A va e off b u' he hsh hu' v d hd := by
    obtain ⟨hinv, hdone, -⟩ := h.run_isolated hpc hu
    simp only [vmExec, he] at hu'
    split at hu' <;> cases hu'
    rename_i hr
    have hnp : ¬u.fork.Pending v := not_pending_nil (hinv.ptes_done hdone)
    exact update_of_ne (hinv.store_unseen hr.1 he hr.2 (fun _ => hdone)
      (by rw [img_of_not_pending hnp]; exact hd) (.inl hsh)) _ _

/-- A run together with the states it has been through. -/
def watch (L : Layout) (x : Vm × List Vm) (a : VmAct) : Option (Vm × List Vm) :=
  (vmExec L x.1 a).map fun t => (t, x.1 :: x.2)

/-- **Fork isolates parent and child**: in every run in which the parent takes no fault on a
    page whose entry is collected and not inserted, the child begins with the pages of the
    parent, each as it was at one moment of the call, and from then on neither of them sees a
    private store of the other. Nothing may be mapped on page zero, which `fork1` leaves out. -/
theorem fork_isolates {L : Layout} {s t : Vm} {H : List Vm} (hs : ForkStart L s)
    (hzero : s.space .parent 0 = none)
    (hrun : Run.Reaches (fun x a y => watch L x a = some y) (fun x a => a.Ok x.1) (s, []) (t, H)) :
    (t.fork.pc = .ready → ∀ va e, L.normal va → t.space .parent va = some e →
      e.shared = false → ∃ c, t.space .child va = some c ∧ c.shared = false ∧
        Moment (t :: H) va (t.data c.ppn)) ∧
    (t.fork.pc = .done → Isolated L t) := by
  have h0 : Inv L s ∧ Inherited L s [] := by
    refine ⟨hs.inv, fun _ va e hlt _ he _ => ?_⟩
    rw [hs.begins] at hlt
    obtain rfl : va = 0 := by simpa using hlt
    rw [hzero] at he
    cases he
  have hinv : Inv L t ∧ Inherited L t H := by
    refine hrun.invariant (I := fun x => Inv L x.1 ∧ Inherited L x.1 x.2) h0 ?_
    rintro x a y ⟨hi, hin⟩ hok hxy
    obtain ⟨u, hu, rfl⟩ := map_eq_some_iff.mp hxy
    exact ⟨hi.exec hok hu, hin.exec hi hu⟩
  obtain ⟨hi, hin⟩ := hinv
  refine ⟨fun hpc va e hn he hsh => ?_, hi.done_isolated⟩
  have hat := hi.book.at_
  simp only [Fork.At, hpc] at hat
  have hva := hi.book.mapped .parent va e he
  obtain ⟨c, hc, hcs, hm⟩ := hin (by simp [hpc]) va e (by omega) hn he hsh
  refine ⟨c, ?_, hcs, hm⟩
  rwa [← img_of_not_pending (A := .child) (not_pending_nil hat.2.2)]

/-- Four pages: the second is the u-area and the third the stack. -/
def fourPages : Layout := ⟨4, 3, 4, 2⟩

/-- The parent has three pages, and the child its u-area. -/
def threePages : Vm where
  data := fun _ _ => 0
  others := fun _ => 0
  buf := fun _ => false
  pd := fun _ => true
  space := fun A va =>
    match A, va with
    | .parent, 1 => some ⟨11, true, false, false, false⟩
    | .parent, 2 => some ⟨12, true, false, false, false⟩
    | .parent, 3 => some ⟨13, true, false, false, false⟩
    | .child, 2 => some ⟨14, true, false, false, false⟩
    | _, _ => none
  fault := fun _ => none
  fork := ⟨1, 1, [], 0, 0, .top⟩

theorem threePages_parent {e : Pte} (h : threePages.space .parent va = some e) :
    va < 4 ∧ e.ppn = va + 10 := by
  simp only [threePages] at h
  split at h <;> simp_all <;> subst h <;> rfl

theorem threePages_child {e : Pte} (h : threePages.space .child va = some e) :
    va = 2 ∧ e = ⟨14, true, false, false, false⟩ := by
  simp only [threePages] at h
  split at h <;> simp_all

theorem threePages_start : ForkStart fourPages threePages where
  begins := rfl
  quiet _ := rfl
  mapped A va e he := by
    cases A with
    | parent => exact (threePages_parent he).1
    | child => exact (threePages_child he).1 ▸ by decide
  dir _ _ _ := rfl
  once va e v d he _ hd heq := by
    have := (threePages_parent he).2
    have := (threePages_parent hd).2
    omega
  uarea va c hc := by
    obtain ⟨rfl, rfl⟩ := threePages_child hc
    refine ⟨rfl, rfl, fun v d hd => ?_⟩
    have := threePages_parent hd
    dsimp only
    omega

/-- Steps of `fork1`; the page of the stack is copied to page 15. -/
def forkSteps (n : Nat) : List VmAct := List.replicate n (.fork 15)

theorem fork_isolates_three_pages : ∃ t H, t.fork.pc = .done ∧ Isolated fourPages t ∧
    Run.execAll (watch fourPages) (forkSteps 12) (threePages, []) = some (t, H) := by
  have hrun : (Run.execAll (watch fourPages) (forkSteps 12) (threePages, [])).map
      (fun x => x.1.fork.pc) = some .done := by
    decide +kernel
  obtain ⟨⟨t, H⟩, ht, hpc⟩ := map_eq_some_iff.mp hrun
  have hreach : Run.Reaches (fun x a y => watch fourPages x a = some y) (fun x a => a.Ok x.1)
      (threePages, []) (t, H) := by
    refine Run.reaches_execAll (forkSteps 12) (fun x a ha => ?_) ht
    rw [List.eq_of_mem_replicate ha]
    trivial
  exact ⟨t, H, hpc, (fork_isolates threePages_start rfl hreach).2 hpc, ht⟩

/-- The first page is protected and its entry collected when the parent writes to it: its count
    is one, the page is made writable, and the child gets it in the last batch. A store of the
    parent after the call is then seen by the child. -/
theorem fork_shares_page : ∃ t u e d,
    Run.execAll (vmExec fourPages)
      (forkSteps 5 ++ [.fault .parent 1, .cow .parent 0, .cow .parent 0] ++ forkSteps 7)
      threePages = some t ∧ ForkStart fourPages threePages ∧ t.fork.pc = .done ∧
    t.space .parent 1 = some e ∧ e.shared = false ∧ t.space .child 1 = some d ∧
    d.shared = false ∧ vmExec fourPages t (.store .parent 1 0 7) = some u ∧
    u.data d.ppn 0 ≠ t.data d.ppn 0 := by
  have hrun : (Run.execAll (vmExec fourPages)
      (forkSteps 5 ++ [.fault .parent 1, .cow .parent 0, .cow .parent 0] ++ forkSteps 7)
      threePages).map (fun t => (t.fork.pc, t.space .parent 1, t.space .child 1,
        t.data 11 0, (vmExec fourPages t (.store .parent 1 0 7)).map fun u => u.data 11 0)) =
      some (.done, some ⟨11, true, false, false, false⟩, some ⟨11, false, false, true, false⟩,
        0, some 7) := by
    decide +kernel
  obtain ⟨t, ht, hview⟩ := map_eq_some_iff.mp hrun
  simp only [Prod.mk.injEq] at hview
  obtain ⟨hpc, he, hd, hold, hstore⟩ := hview
  obtain ⟨u, hu, hnew⟩ := map_eq_some_iff.mp hstore
  refine ⟨t, u, _, _, ht, threePages_start, hpc, he, rfl, hd, rfl, hu, ?_⟩
  dsimp only
  rw [hold, hnew]
  decide

end Exokernel.Libos
