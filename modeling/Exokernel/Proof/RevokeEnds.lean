import Exokernel.Lib.Acyclic
import Exokernel.Lib.Fuel
import Exokernel.Proof.Revoke

/-!
# Revocation ends

`pxn_remove_xtnt` empties a block pointer only after it has called itself for everything forged
from it, and each of these calls takes *every* extent of a pxn that the range contains. So the
recursion can come back to the block pointer it started from: it does, for instance, if a pxn
forges an extent of its own into itself once more, and then it never returns.

**If no extent is forged in a way that closes such a circle, every call returns.** A circle is
one of the relation `BelowXtnt`: what a removal calls itself for. Removals only take extents away,
so below the outermost call the relation of the state it was made in is all that counts.
-/
set_option autoImplicit false

namespace Exokernel

open Option List

open Queue Fuel Acyclic

/-! ## 1. The searches end -/

variable {b : Bptr} {f : Nat × Nat → List Nat} {i p : Nat} {s s' : PxnState}

theorem findRef_settles : ∀ {l : List Nat} {src : (Nat × Nat) ⊕ Nat}
    {o : Option Nat}, Seg s.links src o l → Settles fun n => findRef s p i n o := by
  intro l
  induction l with
  | nil =>
    intro src o hseg
    obtain rfl : o = none := hseg
    exact ⟨none, 0, fun n _ => by cases n <;> rfl⟩
  | cons a l ih =>
    intro src o hseg
    obtain ⟨rfl, -, hrest⟩ := hseg
    refine Settles.succ ?_
    by_cases heq : s.xrs a = (p, i)
    · exact ⟨some a, 0, fun n _ => by simp [findRef, heq]⟩
    · simpa only [findRef, if_neg heq] using ih hrest

/-- The record of an extent is searched on the list of a block pointer that is there. -/
theorem unlinkFromParent_settles
    (hF : Forest s f) (hb : s.bptr? p i = some b)
    (hparent : ∀ q j, b.forgedFrom = some (q, j) → ∃ Q, s.pxns q = some Q) :
    Settles fun n => unlinkFromParent n s p i := by
  simp only [unlinkFromParent, hb, bind_some]
  cases hfr : b.forgedFrom with
  | none => exact .pure s
  | some a =>
    obtain ⟨Q, hQ⟩ := hparent a.1 a.2 hfr
    simp only [hQ, bind_some]
    refine (findRef_settles (hF.holds.seg a)).bind fun r _ => ?_
    cases r with
    | none => exact .pure s
    | some xr => exact .pure _

/-! ## 2. What a removal calls itself for -/

/-- Removing the extent of block pointer `a`, `pxn_remove_xtnt` comes to `t`: something was forged
    from `a` into the pxn of `t`, and it contains the extent of `t`. -/
def BelowXtnt (s : PxnState) (t a : Nat × Nat) : Prop :=
  ∃ c b d, XtntAt s c b ∧ b.forgedFrom = some a ∧ t.1 = c.1 ∧ XtntAt s t d ∧
    xtntDominates b.xtnt d.xtnt = true

theorem BelowXtnt.fewer (hfew : Fewer s s') {t a : Nat × Nat}
    (h : BelowXtnt s' t a) : BelowXtnt s t a := by
  obtain ⟨c, b, d, hc, hfr, htc, hd, hdom⟩ := h
  exact ⟨c, b, d, hfew _ _ hc, hfr, htc, hfew _ _ hd, hdom⟩

theorem wellFounded_fewer (h : WellFounded (BelowXtnt s)) (hfew : Fewer s s') :
    WellFounded (BelowXtnt s') :=
  Subrelation.wf (fun hb => hb.fewer hfew) h

/-! ## 3. The recursion ends -/

/-- A block pointer that was there still is, with the same extent in it. -/
theorem Shrinks.bptr_some {f' : Nat × Nat → List Nat}
    (h : Shrinks s f s' f') (hb : s.bptr? p i = some b) :
    ∃ b', s'.bptr? p i = some b' ∧ b'.xtnt = b.xtnt ∧ b'.forgedFrom = b.forgedFrom := by
  rcases h.bptr p i with heq | ⟨c, hc, heq⟩
  · exact ⟨b, heq.trans hb, rfl, rfl⟩
  · obtain rfl : b = c := some.inj (hb.symm.trans hc.1)
    exact ⟨_, heq, rfl, rfl⟩

theorem pxns_of_bptr (h : s.bptr? p i = some b) :
    ∃ P, s.pxns p = some P := by
  obtain ⟨P, hP, -⟩ := bind_eq_some_iff.mp h
  exact ⟨P, hP⟩

section
-- the state in which the outermost call is made; nothing is added from then on
variable {s₀ : PxnState} {f₀ : Nat × Nat → List Nat}

/-- The walk along the list of block pointer `a` ends, whatever has been taken away before. -/
def WalkEnds (s₀ : PxnState) (f₀ : Nat × Nat → List Nat) (a : Nat × Nat) : Prop :=
  ∀ s f, Forest s f → Shrinks s₀ f₀ s f →
    Settles fun n => forgedToLoop (pxnRemoveXtnt n) n s (s.links.first a)

/-- The loop over the block pointers `i, …, i + left - 1` of `p`, which are all there. -/
theorem removeLoop_settles {p : Nat} {x : Xtnt} (left : Nat) :
    ∀ {i : Nat} {s : PxnState} {f : Nat × Nat → List Nat}, Forest s f → Shrinks s₀ f₀ s f →
      (∀ j, i ≤ j → j < i + left → ∃ b, s.bptr? p j = some b) →
      (∀ j b, XtntAt s (p, j) b → xtntDominates x b.xtnt = true → WalkEnds s₀ f₀ (p, j)) →
      Settles fun n => removeLoop (pxnRemoveXtnt n) n p x left i s := by
  induction left with
  | zero => intro i s f _ _ _ _; exact .pure s
  | succ left ih =>
    intro i s f hF hsh hthere hends
    obtain ⟨b, hb⟩ := hthere i (Nat.le_refl i) (by omega)
    simp only [removeLoop, hb, bind_some]
    split
    · rename_i hdom
      simp only [Bool.and_eq_true, decide_eq_true_eq] at hdom
      have hat : XtntAt s (p, i) b := ⟨hb, hdom.1⟩
      refine (hends i b hat hdom.2 s f hF hsh).bind fun s₁ hs₁ => ?_
      obtain ⟨n₁, hn₁⟩ := hs₁.exists_eq
      obtain ⟨f₁, hF₁, hsh₁, -⟩ := forgedToLoop_spec (pxnRemoveXtnt_keeps n₁) (p, i) n₁ hF
        (fun n hn => (hF.holds.seg (p, i)).leads n hn) hn₁
      have hunlink : Settles fun n => unlinkFromParent n s₁ p i := by
        obtain ⟨c, hc, -, hfrom⟩ := hsh₁.bptr_some hb
        refine unlinkFromParent_settles hF₁ hc fun q j hqj => ?_
        -- the parent was there when the loop began, and no pxn has gone since
        obtain ⟨xr, hxr, -⟩ := hF.parent _ b hat (q, j) (hfrom ▸ hqj)
        obtain ⟨d, hd⟩ := hF.head (q, j) (ne_nil_of_mem hxr)
        obtain ⟨d', hd', -, -⟩ := hsh₁.bptr_some hd.1
        exact pxns_of_bptr hd'
      refine hunlink.bind fun s₂ hs₂ => ?_
      obtain ⟨n₂, hn₂⟩ := hs₂.exists_eq
      obtain ⟨g₁, g₂, -, hsh₁', hF₂, hsh₂, -⟩ :=
        removeRound_spec (pxnRemoveXtnt_keeps n₁) hF hat hn₁ hn₂
      have hround := hsh₁'.trans hsh₂
      refine ih hF₂ (hsh.trans hround) (fun j hij hji => ?_) fun j c hc hcd => ?_
      · obtain ⟨c, hc⟩ := hthere j (by omega) (by omega)
        obtain ⟨c', hc', -, -⟩ := hround.bptr_some hc
        exact ⟨c', hc'⟩
      · exact hends j c (hround.xtntAt hc) hcd
    · exact ih hF hsh (fun j hij hji => hthere j (by omega) (by omega)) hends

/-- A call returns if the walks do that it starts. -/
theorem pxnRemoveXtnt_settles_of {s : PxnState} {f : Nat × Nat → List Nat} {p : Nat} {P : Pxn}
    {x : Xtnt} (hF : Forest s f) (hsh : Shrinks s₀ f₀ s f) (hP : s.pxns p = some P)
    (hends : ∀ j b, XtntAt s (p, j) b → xtntDominates x b.xtnt = true → WalkEnds s₀ f₀ (p, j)) :
    Settles fun n => pxnRemoveXtnt n s p x := by
  refine Settles.succ ?_
  simp only [pxnRemoveXtnt, hP, bind_some]
  refine removeLoop_settles P.bptrs.length hF hsh (fun j _ hj => ?_) hends
  have hj : j < P.bptrs.length := by omega
  exact ⟨P.bptrs[j], by simp [PxnState.bptr?, hP]⟩

/-- The walk along the list of block pointer `a`, of which `l` is still ahead. The fuel of the
    recursive calls is larger than that of the walk by what the walk has spent. -/
theorem forgedToLoop_settles (hF₀ : Forest s₀ f₀) {a : Nat × Nat}
    (hends : ∀ t, BelowXtnt s₀ t a → WalkEnds s₀ f₀ t) :
    ∀ (l : List Nat) (k : Nat) {s : PxnState} {f : Nat × Nat → List Nat} {o : Option Nat},
      Forest s f → Shrinks s₀ f₀ s f → Forward s.links l → (∀ n ∈ l, n ∈ f₀ a) →
      (∀ n, o = some n → n ∈ l) →
      Settles fun n => forgedToLoop (pxnRemoveXtnt (n + k)) n s o := by
  intro l
  induction l with
  | nil =>
    intro k s f o hF hsh hfwd hl ho
    cases o with
    | none => exact ⟨s, 0, fun n _ => by cases n <;> rfl⟩
    | some xr => exact absurd (ho xr rfl) (by simp)
  | cons xr l ih =>
    intro k s f o hF hsh hfwd hl ho
    have hrest : ∀ n ∈ l, n ∈ f₀ a := fun n hn => hl n (mem_cons_of_mem _ hn)
    cases o with
    | none => exact ⟨s, 0, fun n _ => by cases n <;> rfl⟩
    | some xr' =>
      rcases mem_cons.mp (ho xr' rfl) with rfl | hmem
      · -- the record the walk stands on: the call for its extent, then the rest
        obtain ⟨-, c, hc, hfr⟩ := hF₀.record a xr' (hl xr' mem_cons_self)
        rw [← hsh.xrs] at hc
        obtain ⟨c', hc', hxt, -⟩ := hsh.bptr_some hc.1
        obtain ⟨P, hP⟩ := pxns_of_bptr hc'
        obtain ⟨s₁, hs₁⟩ : Settles fun n => pxnRemoveXtnt n s (s.xrs xr').1 c'.xtnt := by
          refine pxnRemoveXtnt_settles_of hF hsh hP fun j d hd hdom => hends _ ?_
          exact ⟨_, c, d, hc, hfr, rfl, hsh.xtntAt hd, hxt ▸ hdom⟩
        have hcall : Settles fun n => pxnRemoveXtnt (n + 1 + k) s (s.xrs xr').1 c'.xtnt :=
          ⟨s₁, (hs₁.add k).add 1⟩
        refine Settles.succ ?_
        simp only [forgedToLoop, hc', bind_some]
        refine hcall.bind fun t ht => ?_
        obtain ⟨n, hn⟩ := ht.exists_eq
        obtain ⟨f', hF', hsh', -⟩ := pxnRemoveXtnt_spec _ _ _ _ _ _ hF hn
        have hfwd' := (pxnRemoveXtnt_keeps _).2 _ _ _ _ _ hF hn _ hfwd
        have hres := ih (k + 1) hF' (hsh.trans hsh') hfwd'.2 hrest hfwd'.1
        simpa only [Nat.add_assoc, Nat.add_comm 1 k] using hres
      · exact ih k hF hsh hfwd.2 hrest fun n hn => by rw [← some.inj hn]; exact hmem

theorem walkEnds (hF₀ : Forest s₀ f₀) (hwf : WellFounded (BelowXtnt s₀)) (a : Nat × Nat) :
    WalkEnds s₀ f₀ a := by
  induction a using hwf.induction with
  | _ a ih =>
    intro s f hF hsh
    refine forgedToLoop_settles hF₀ ih (f a) 0 hF hsh (hF.holds.seg a).forward (hsh.lists a) ?_
    intro n hn
    rw [hF.holds.first_eq] at hn
    exact mem_of_head? hn

theorem pxnRemoveXtnt_settles (hF₀ : Forest s₀ f₀) (hwf : WellFounded (BelowXtnt s₀)) {p : Nat}
    {P : Pxn} (hP : s₀.pxns p = some P) (x : Xtnt) :
    Settles fun n => pxnRemoveXtnt n s₀ p x :=
  pxnRemoveXtnt_settles_of hF₀ (.refl s₀ f₀) hP fun j _ _ _ => walkEnds hF₀ hwf (p, j)

end

/-! ## 4. `pxn_dealloc` ends -/

/-- No block pointer leads to another pxn. -/
def Flat (s : PxnState) : Prop := ∀ p i b, s.bptr? p i = some b → b.type ≠ .pxn

theorem Flat.prunes (h : Flat s) (hp : Prunes s s') : Flat s' := by
  intro p i b hb hbt
  obtain ⟨P', hP', hi⟩ := bind_eq_some_iff.mp hb
  obtain ⟨P, hP, hpr⟩ := hp.pxns p P' hP'
  refine h p i b ?_ hbt
  simp only [PxnState.bptr?, hP, bind_some]
  exact hpr.bptr i b hi (by simp [hbt])

theorem deallocLoop_settles (left : Nat) :
    ∀ {i : Nat} {s : PxnState} {f : Nat × Nat → List Nat}, Forest s f → WellFounded (BelowXtnt s) →
      Flat s → (∀ j, i ≤ j → j < i + left → ∃ b, s.bptr? p j = some b) →
      Settles fun n => deallocLoop (pxnDealloc n) n p left i s := by
  induction left with
  | zero => intro i s f _ _ _ _; exact .pure s
  | succ left ih =>
    intro i s f hF hwf hflat hthere
    obtain ⟨b, hb⟩ := hthere i (Nat.le_refl i) (by omega)
    have hrest : ∀ j, i + 1 ≤ j → j < i + 1 + left → ∃ b, s.bptr? p j = some b :=
      fun j hij hji => hthere j (by omega) (by omega)
    simp only [deallocLoop, hb, bind_some]
    cases hbt : b.type with
    | empty => exact ih hF hwf hflat hrest
    | xtnt =>
      obtain ⟨P, hP⟩ := pxns_of_bptr hb
      refine (pxnRemoveXtnt_settles hF hwf hP b.xtnt).bind fun s₁ hs₁ => ?_
      obtain ⟨n, hn⟩ := hs₁.exists_eq
      obtain ⟨f₁, hF₁, hsh, -⟩ := pxnRemoveXtnt_spec n _ _ _ _ _ hF hn
      refine ih hF₁ (wellFounded_fewer hwf fun _ _ hc => hsh.xtntAt hc)
        (hflat.prunes (pxnRemoveXtnt_prunes n _ _ _ _ hn)) fun j hij hji => ?_
      obtain ⟨c, hc⟩ := hrest j hij hji
      obtain ⟨c', hc', -, -⟩ := hsh.bptr_some hc
      exact ⟨c', hc'⟩
    | pxn => exact absurd hbt (hflat p i b hb)

theorem pxnDealloc_settles {P : Pxn}
    (hF : Forest s f) (hwf : WellFounded (BelowXtnt s)) (hflat : Flat s)
    (hP : s.pxns p = some P) : Settles fun n => pxnDealloc n s p := by
  refine Settles.succ ?_
  simp only [pxnDealloc, hP, bind_some]
  split
  · exact .pure _
  have hdec : Prunes s (s.modPxn p ({ · with refcnt := P.refcnt - 1 })) :=
    .modPxn s p fun _ => ⟨rfl, rfl, rfl, rfl, fun _ _ hb _ => hb⟩
  have hF₀ := hF.modPxn p (g := fun Q => { Q with refcnt := P.refcnt - 1 }) fun _ => rfl
  refine (deallocLoop_settles P.bptrs.length hF₀
    (wellFounded_fewer hwf fun _ _ hc => hdec.xtntAt hc) (hflat.prunes hdec)
    fun j _ hj => ?_).bind fun s₁ _ => .pure _
  have hj : j < P.bptrs.length := by omega
  refine ⟨P.bptrs[j], ?_⟩
  rw [PxnState.modPxn_bptr? _ _ _ _ _ fun _ => by rfl]
  simp [PxnState.bptr?, hP]

/-! ## 5. The calls -/

section
variable {s s' : PxnState} {f : Nat × Nat → List Nat}

theorem Forest.not_forged (hF : Forest s f) {a c : Nat × Nat} {b : Bptr}
    (ha : ∀ d, ¬XtntAt s a d) (hc : XtntAt s c b) : b.forgedFrom ≠ some a := by
  intro hfr
  obtain ⟨xr, hxr, -⟩ := hF.parent c b hc a hfr
  obtain ⟨d, hd⟩ := hF.head a (ne_nil_of_mem hxr)
  exact ha d hd

/-- A new extent closes no circle if it was not forged, or if nothing that it contains in its pxn
    leads to the extent it was forged from. -/
theorem wellFounded_below_add (hF : Forest s f) (hwf : WellFounded (BelowXtnt s)) {p i : Nat}
    {b : Bptr} (hb : s.bptr? p i = some b) (hbt : b.type = .empty) {g : Bptr → Bptr}
    (hs' : s'.pxns = (s.modBptr p i g).pxns)
    (hsrc : ∀ a, (g b).forgedFrom = some a → ∃ c, XtntAt s a c)
    (hnew : ∀ a, (g b).forgedFrom = some a → ∀ j d, XtntAt s (p, j) d →
      xtntDominates (g b).xtnt d.xtnt = true → ¬Down (BelowXtnt s) (p, j) a) :
    WellFounded (BelowXtnt s') := by
  have hfree : ∀ c, ¬XtntAt s (p, i) c := not_xtntAt_of_empty hb hbt
  refine wellFounded_add hwf (a := (g b).forgedFrom.getD (p, i)) (S := fun t => t = (p, i))
    (T := fun t => ∃ a d, (g b).forgedFrom = some a ∧ t.1 = p ∧ XtntAt s t d ∧
      xtntDominates (g b).xtnt d.xtnt = true) ?_ ?_ ?_
  · intro t u ⟨c, b', d, hc, hfr, htc, hd, hdom⟩
    rcases (xtntAt_set hs' hb).mp hd with ⟨ht, -, -⟩ | ⟨-, hd⟩
    · exact .inr (.inl ht)
    rcases (xtntAt_set hs' hb).mp hc with ⟨rfl, rfl, -⟩ | ⟨-, hc⟩
    · exact .inr (.inr ⟨by rw [hfr]; rfl, u, d, hfr, htc, hd, hdom⟩)
    · exact .inl ⟨c, b', d, hc, hfr, htc, hd, hdom⟩
  · -- the new block pointer has no children
    rintro z rfl t ⟨c, b', d, hc, hfr, -, -, -⟩
    rcases (xtntAt_set hs' hb).mp hc with ⟨-, rfl, -⟩ | ⟨-, hc⟩
    · obtain ⟨e, he⟩ := hsrc _ hfr
      exact hfree e he
    · exact hF.not_forged hfree hc hfr
  · rintro ⟨q, j⟩ ⟨a, d, hfr, rfl, hd, hdom⟩
    rw [hfr]
    exact hnew a hfr j d hd hdom

theorem Flat.modBptr (h : Flat s) {p i : Nat} {g : Bptr → Bptr} (hg : ∀ b, (g b).type ≠ .pxn)
    (hs' : s'.pxns = (s.modBptr p i g).pxns) : Flat s' := by
  intro q j b hb
  have hbp : s'.bptr? q j = (s.modBptr p i g).bptr? q j := by simp [PxnState.bptr?, hs']
  rw [hbp, PxnState.modBptr_bptr?] at hb
  split at hb
  · obtain ⟨c, -, rfl⟩ := map_eq_some_iff.mp hb
    exact hg c
  · exact h q j b hb

end

/-- What every state of a run satisfies. -/
def Ending (s : PxnState) : Prop := ∃ f, Forest s f ∧ WellFounded (BelowXtnt s) ∧ Flat s

section
variable {s s' : PxnState}

theorem Ending.prunes (h : Ending s) {f' : Nat × Nat → List Nat} (hF' : Forest s' f')
    (hp : Prunes s s') : Ending s' := by
  obtain ⟨f, -, hwf, hflat⟩ := h
  exact ⟨f', hF', wellFounded_fewer hwf fun _ _ hb => hp.xtntAt hb, hflat.prunes hp⟩

theorem Ending.modPxn (h : Ending s) (p : Nat) {g : Pxn → Pxn}
    (hg : ∀ P, (g P).bptrs = P.bptrs) : Ending (s.modPxn p g) := by
  obtain ⟨f, hF, hwf, hflat⟩ := h
  refine ⟨f, hF.modPxn p hg, wellFounded_fewer hwf fun a b hb => (xtntAt_modPxn p hg).mp hb,
    fun q i b hb => ?_⟩
  rw [PxnState.modPxn_bptr? _ _ _ _ _ hg] at hb
  exact hflat q i b hb

theorem Ending.pxnAlloc (h : Ending s) (pc xc : BitVec 8) (bs : BitVec 16) (cp cx : Cap)
    (n : XnName) (mem : Option (Nat → AclEntry)) : Ending (pxnAlloc s pc xc bs cp cx n mem).2 := by
  obtain ⟨f, hF, hwf, hflat⟩ := h
  refine ⟨f, hF.pxnAlloc pc xc bs cp cx n mem, wellFounded_fewer hwf fun a b hb => xtntAt_pxnAlloc hb,
    fun p i b hb => ?_⟩
  rcases pxnAlloc_bptr hb with hold | hempty
  · exact hflat p i b hold
  · rw [hempty]; simp

theorem Ending.pxnKernelAddXtnt (h : Ending s) (n : XnName) {x : Xtnt}
    (hx : xtntDominates x x = true) : Ending (pxnKernelAddXtnt s n x).2 := by
  rcases pxnKernelAddXtnt_cases s n x with heq | ⟨p, P, i, -, hP, hi, heq⟩
  · rw [heq]; exact h
  have hpxns := congrArg PxnState.pxns heq
  obtain ⟨f, hF, hwf, hflat⟩ := h
  obtain ⟨b, hb, hbt⟩ := findFreeBptr_some hP hi
  have hwf' := wellFounded_below_add hF hwf hb hbt hpxns (fun a ha => absurd ha (by simp))
    fun a ha => absurd ha (by simp)
  exact ⟨f, hF.pxnKernelAddXtnt n hx, hwf', hflat.modBptr (fun _ => by simp) hpxns⟩

theorem forgeXtnt_pxns (src j dst i : Nat) (x : Xtnt) :
    (forgeXtnt s src j dst i x false).pxns = (s.modBptr dst i
      ({ · with type := .xtnt, xtnt := x, forgedFrom := some (src, j) })).pxns := rfl

theorem Ending.forgeXtnt (h : Ending s) {src j dst i : Nat} {x : Xtnt} (freeze : Bool)
    (hx : xtntDominates x x = true) {b c : Bptr} (hb : s.bptr? dst i = some b)
    (hbt : b.type = .empty) (hc : XtntAt s (src, j) c)
    (hnew : ∀ k d, XtntAt s (dst, k) d → xtntDominates x d.xtnt = true →
      ¬Down (BelowXtnt s) (dst, k) (src, j)) : Ending (forgeXtnt s src j dst i x freeze) := by
  obtain ⟨f, hF, hwf, hflat⟩ := h
  -- first without the flag, which only marks the pxn
  have hplain : Ending (Exokernel.forgeXtnt s src j dst i x false) := by
    obtain ⟨f', hF'⟩ := hF.forgeXtnt false hx hb hbt hc
    have hwf' := wellFounded_below_add hF hwf hb hbt (forgeXtnt_pxns src j dst i x)
      (fun a ha => by cases ha; exact ⟨c, hc⟩) fun a ha => by cases ha; exact hnew
    exact ⟨f', hF', hwf', hflat.modBptr (fun _ => by simp) (forgeXtnt_pxns src j dst i x)⟩
  cases freeze with
  | false => exact hplain
  | true =>
    exact hplain.modPxn dst fun _ => rfl

theorem Ending.pxnAddXtnt (h : Ending s) {src : Option Nat} {dst : Nat} {x : Xtnt}
    (hx : xtntDominates x x = true) {cd cs cx : Cap} {mem : Bool}
    (hnew : ∀ p S j, src = some p → s.pxns p = some S → findDominatingXtnt S x = some j →
      ∀ k d, XtntAt s (dst, k) d → xtntDominates x d.xtnt = true →
        ¬Down (BelowXtnt s) (dst, k) (p, j))
    {r : Except Errno Unit × PxnState} (hr : pxnAddXtnt s src dst x cd cs cx mem = some r) :
    Ending r.2 := by
  rcases pxnAddXtnt_cases hr with
    heq | ⟨D, -, -, heq⟩ | ⟨p, S, D, j, i, hp, hS, hD, -, hj, hi, heq⟩
  · rw [heq]; exact h
  · rw [heq]; exact h.pxnKernelAddXtnt _ hx
  obtain ⟨b, hb, hbt⟩ := findFreeBptr_some hD hi
  obtain ⟨c, hc, -⟩ := findDominatingXtnt_some hS hj
  rcases heq with heq | heq
  · rw [heq]
    exact h.forgeXtnt _ hx hb hbt hc (hnew p S j hp hS hj)
  -- no memory for the record: the block pointer stays empty
  have ⟨f, hF, _, _⟩ := h
  rw [heq]
  exact h.prunes (hF.unforgeXtnt x hb hbt) (.unforgeXtnt s dst i x)

end

/-- The calls of this section. An extent that is added contains itself; if it is forged, no extent
    that it contains in its new pxn leads to the extent it comes from; and a pxn fits the size it
    is allocated with. -/
def PxnOp.Acyclic (s : PxnState) : PxnOp → Prop
  | .alloc _ pc xc bs _ _ _ _ => pxnSize pc xc bs < 2 ^ 16
  | .kernelAddXtnt _ x => xtntDominates x x = true
  | .addXtnt _ src dst x _ _ _ _ => xtntDominates x x = true ∧
      ∀ n p q S j, src = some n → lookupPxn s n = some p → lookupPxn s dst = some q →
        s.pxns p = some S → findDominatingXtnt S x = some j →
        ∀ k d, XtntAt s (q, k) d → xtntDominates x d.xtnt = true →
          ¬Down (BelowXtnt s) (q, k) (p, j)
  | .removeXtnt _ _ _ _ _ => True
  | _ => False

theorem Ending.exec (h : Ending s) {op : PxnOp} (hok : op.Acyclic s)
    (hs : op.exec s = some s') : Ending s' := by
  cases op with
  | alloc e pc xc bs kp kx n mem =>
    cases hs
    unfold sysPxnAlloc
    split
    · exact h
    split
    · exact h
    · exact h.pxnAlloc _ _ _ _ _ _ _
  | addXtnt e src dst x kd ks kx mem =>
    obtain ⟨r, hr, rfl⟩ := map_eq_some_iff.mp hs
    rcases sysPxnAddXtnt_cases hr with heq | ⟨src', q, cd, cs, cx, hq, hadd, hsrc⟩
    · rw [heq]; exact h
    refine h.pxnAddXtnt hok.1 (fun p S j hp hS hj => ?_) hadd
    obtain ⟨n, -, hn, hlook, -, -⟩ := hsrc p hp
    exact hok.2 n p q S j hn hlook hq hS hj
  | removeXtnt fuel e n x k =>
    obtain ⟨r, hr, rfl⟩ := map_eq_some_iff.mp hs
    rcases sysPxnRemoveXtnt_cases hr with heq | ⟨p, -, hrem⟩
    · rw [heq]; exact h
    have ⟨f, hF, _, _⟩ := h
    obtain ⟨f', hF', -, -⟩ := pxnRemoveXtnt_spec fuel _ _ _ _ _ hF hrem
    exact h.prunes hF' (pxnRemoveXtnt_prunes fuel _ _ _ _ hrem)
  | kernelAddXtnt n x =>
    cases hs
    exact h.pxnKernelAddXtnt n hok
  | addCap => exact absurd hok id
  | addPxn => exact absurd hok id
  | dealloc => exact absurd hok id

theorem ending_empty : Ending .empty := by
  have hnone : ∀ p i, PxnState.empty.bptr? p i = none := fun _ _ => rfl
  have hx : ∀ a b, ¬XtntAt .empty a b := fun a b hb => by
    have := hb.1
    rw [hnone] at this
    exact absurd this (by simp)
  refine ⟨_, forest_empty, ⟨fun a => ⟨a, fun t ht => ?_⟩⟩, fun p i b hb => ?_⟩
  · obtain ⟨c, b, -, hc, -⟩ := ht
    exact absurd hc (hx c b)
  · rw [hnone] at hb
    exact absurd hb (by simp)

/-! ## 6. Runs -/

/-- **Revocation ends** in every state that a run reaches in which no forged extent closes a
    circle: with enough fuel `pxn_remove_xtnt` and `pxn_dealloc` return. -/
theorem revocation_ends {s : PxnState}
    (hrun : Run.Reaches (fun s op s' => PxnOp.exec s op = some s') (fun s op => op.Acyclic s)
      .empty s) {p : Nat} {P : Pxn} (hP : s.pxns p = some P) :
    (∀ x, ∃ N s', ∀ fuel, N ≤ fuel → pxnRemoveXtnt fuel s p x = some s') ∧
      ∃ N s', ∀ fuel, N ≤ fuel → pxnDealloc fuel s p = some s' := by
  obtain ⟨f, hF, hwf, hflat⟩ : Ending s :=
    hrun.invariant (I := Ending) ending_empty fun _ _ _ h hok hs => h.exec hok hs
  refine ⟨fun x => ?_, ?_⟩
  · obtain ⟨s', N, hN⟩ := pxnRemoveXtnt_settles hF hwf hP x
    exact ⟨N, s', hN⟩
  · obtain ⟨s', N, hN⟩ := pxnDealloc_settles hF hwf hflat hP
    exact ⟨N, s', hN⟩

/-- Ten blocks forged into another pxn: removing the hundred they come from returns. -/
theorem revocation_ends_forged_ten :
    ∃ s, Run.execAll PxnOp.exec (forgeOps ⟨50, 10⟩) .empty = some s ∧
      ∃ N s', ∀ fuel, N ≤ fuel → pxnRemoveXtnt fuel s 0 ⟨0, 100⟩ = some s' := by
  refine ⟨_, rfl, (revocation_ends (p := 0) ?_ rfl).1 ⟨0, 100⟩⟩
  refine (((Run.Reaches.refl.call
    (i := .alloc (bootEnv rootCap) 1 1 1 0 0 ⟨0, 0⟩ (some fun _ => .ofCap Cap.null)) ?_ rfl).call
    (i := .kernelAddXtnt ⟨0, 0⟩ ⟨0, 100⟩) ?_ rfl).call
    (i := .alloc (bootEnv rootCap) 1 1 1 0 0 ⟨0, 1⟩ (some fun _ => .ofCap Cap.null)) ?_ rfl).call
    (i := .addXtnt (bootEnv rootCap) (some ⟨0, 0⟩) ⟨0, 1⟩ ⟨50, 10⟩ 0 0 0 true) ?_ rfl
  · show pxnSize 1 1 1 < 2 ^ 16; decide
  · show xtntDominates ⟨0, 100⟩ ⟨0, 100⟩ = true; decide
  · show pxnSize 1 1 1 < 2 ^ 16; decide
  refine ⟨by decide, fun _ p q S j _ _ hq _ _ k b hb => ?_⟩
  -- the new pxn holds nothing yet
  obtain rfl : 1 = q := some.inj hq
  cases k with
  | zero =>
    obtain rfl : Bptr.blank = b := some.inj hb.1
    exact absurd hb.2 (by decide)
  | succ k =>
    have hnone : none = some b := hb.1
    exact absurd hnone (by simp)

/-! ## 7. The same range twice -/

/-- A block pointer's first record names an extent of the same pxn with the range that is being
    removed: the call for it is the call itself, in the same state. -/
theorem pxnRemoveXtnt_loops {xr : Nat} {c : Bptr}
    (hb : XtntAt s (p, 0) b) (hfirst : s.links.first (p, 0) = some xr) (hxr : s.xrs xr = (p, i))
    (hi : s.bptr? p i = some c) (hdom : xtntDominates c.xtnt b.xtnt = true) (fuel : Nat) :
    pxnRemoveXtnt fuel s p c.xtnt = none := by
  induction fuel with
  | zero => rfl
  | succ fuel ih =>
    obtain ⟨P, hP, hat⟩ := bind_eq_some_iff.mp hb.1
    obtain ⟨left, hleft⟩ : ∃ left, P.bptrs.length = left + 1 := by
      have := (List.getElem?_eq_some_iff.mp hat).1
      exact ⟨P.bptrs.length - 1, by omega⟩
    have hcond : (b.type = .xtnt && xtntDominates c.xtnt b.xtnt) = true := by simp [hb.2, hdom]
    rw [pxnRemoveXtnt, hP, bind_some, hleft, removeLoop, hb.1, bind_some, if_pos hcond, hfirst]
    cases fuel with
    | zero => rfl
    | succ fuel => simp only [forgedToLoop, hxr, hi, bind_some, ih, Option.bind_none]

/-- A pxn with a hundred blocks, which are forged once more into the same pxn. -/
def reforgeOps : List PxnOp :=
  let e := bootEnv rootCap
  [.alloc e 1 1 2 0 0 ⟨0, 0⟩ (some fun _ => .ofCap Cap.null), .kernelAddXtnt ⟨0, 0⟩ ⟨0, 100⟩,
    .addXtnt e (some ⟨0, 0⟩) ⟨0, 0⟩ ⟨0, 100⟩ 0 0 0 true]

/-- **A pxn that forges its own extent to itself cannot be revoked**: the call for the hundred
    blocks never returns. -/
theorem revocation_never_ends :
    ∃ s, Run.Reaches (fun s op s' => PxnOp.exec s op = some s') (fun _ _ => True) .empty s ∧
      ∀ fuel, pxnRemoveXtnt fuel s 0 ⟨0, 100⟩ = none := by
  refine ⟨_, Run.reaches_execAll reforgeOps (fun _ _ _ => trivial) rfl, fun fuel => ?_⟩
  exact pxnRemoveXtnt_loops (b := ⟨.xtnt, ⟨0, 100⟩, none, 0⟩)
    (c := ⟨.xtnt, ⟨0, 100⟩, some (0, 0), 0⟩) (i := 1) ⟨rfl, rfl⟩ rfl rfl rfl (by decide) fuel

end Exokernel
