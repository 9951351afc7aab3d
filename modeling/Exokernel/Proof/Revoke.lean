import Exokernel.Lib.Run
import Exokernel.Lib.Tally
import Exokernel.Kern.Boot
import Exokernel.Proof.Prune

/-!
# Revoking extents

Extents form a forest: each forged extent hangs below the one it was forged from, by a
record on the parent's `xtnt_forged_to` list. `pxn_remove_xtnt` cuts a subtree off
while it walks the very lists it edits. **If every extent contains itself, what is
left is a forest again**, nothing below a removed extent survives, and no record or
back pointer dangles.

Containing itself is not a triviality here: `xtnt_dominates` is computed in 64-bit
words, and an extent of length zero, or one whose end wraps around, does not dominate
itself. Such an extent is accepted and never removed.

The walk is the interesting part. A recursive call may unlink the record the walk
stands on, and others of the same list. What saves it is `Queue.Leads.remove`: an
unlinked record keeps its `le_next`, and whatever is still linked stays reachable
from it.
-/
set_option autoImplicit false

namespace Exokernel

open Function Option List

open Queue

/-! ## 1. The forest -/

/-- The extents and their records agree: `f h` are the records on the list of block
    pointer `h`. -/
structure Forest (s : PxnState) (f : Nat × Nat → List Nat) : Prop where
  holds : Holds s.links f
  record : ∀ h xr, xr ∈ f h → xr < s.nextXr ∧ ∃ b, XtntAt s (s.xrs xr) b ∧ b.forgedFrom = some h
  parent : ∀ h b, XtntAt s h b → ∀ h', b.forgedFrom = some h' → ∃ xr ∈ f h', s.xrs xr = h
  uniq : ∀ h xr xr', xr ∈ f h → xr' ∈ f h → s.xrs xr = s.xrs xr' → xr = xr'
  head : ∀ h, f h ≠ [] → ∃ b, XtntAt s h b
  self : ∀ h b, XtntAt s h b → xtntDominates b.xtnt b.xtnt = true
  fresh : ∀ p, s.nextPxn ≤ p → s.pxns p = none

variable {f : Nat × Nat → List Nat} {fuel i p : Nat}
  {remove : PxnState → Nat → Xtnt → Option PxnState} {s s' : PxnState}

/-- The forest is about block pointers that hold extents, and about their records. -/
theorem Forest.congr (h : Forest s f)
    (hx : ∀ a b, XtntAt s' a b ↔ XtntAt s a b) (hr : s'.xrs = s.xrs)
    (hn : s'.nextXr = s.nextXr) (hl : s'.links = s.links)
    (hf : ∀ p, s'.nextPxn ≤ p → s'.pxns p = none) : Forest s' f where
  holds := by rw [hl]; exact h.holds
  record a xr hxr := by
    obtain ⟨hlt, b, hb, hfr⟩ := h.record a xr hxr
    rw [hr, hn]
    exact ⟨hlt, b, (hx _ _).mpr hb, hfr⟩
  parent a b hb a' hfr := by
    rw [hr]
    exact h.parent a b ((hx _ _).mp hb) a' hfr
  uniq := by rw [hr]; exact h.uniq
  head a ha := by
    obtain ⟨b, hb⟩ := h.head a ha
    exact ⟨b, (hx _ _).mpr hb⟩
  self a b hb := h.self a b ((hx _ _).mp hb)
  fresh := hf

/-- What a removal may do: empty block pointers that held extents, and unlink records. -/
structure Shrinks (s : PxnState) (f : Nat × Nat → List Nat) (s' : PxnState)
    (f' : Nat × Nat → List Nat) : Prop where
  xrs : s'.xrs = s.xrs
  bptr : ∀ p i, s'.bptr? p i = s.bptr? p i ∨
    ∃ b, XtntAt s (p, i) b ∧ s'.bptr? p i = some { b with type := .empty }
  lists : ∀ h n, n ∈ f' h → n ∈ f h
  leads : ∀ h n o, n ∈ f' h → Leads s.links o n → Leads s'.links o n

namespace Shrinks

variable {s s' s'' : PxnState} {f f' f'' : Nat × Nat → List Nat}

theorem refl (s : PxnState) (f : Nat × Nat → List Nat) : Shrinks s f s f :=
  ⟨rfl, fun _ _ => .inl rfl, fun _ _ h => h, fun _ _ _ _ h => h⟩

theorem trans (h : Shrinks s f s' f') (h' : Shrinks s' f' s'' f'') : Shrinks s f s'' f'' where
  xrs := h'.xrs.trans h.xrs
  bptr p i := by
    rcases h'.bptr p i with heq' | ⟨b, hb, heq'⟩
    · rw [heq']; exact h.bptr p i
    rcases h.bptr p i with heq | ⟨c, _, heq⟩
    · exact .inr ⟨b, ⟨heq ▸ hb.1, hb.2⟩, heq'⟩
    -- emptied already: it did not hold an extent in between
    have hbc := hb.1.symm.trans heq
    exact absurd hb.2 (by rw [some.inj hbc]; simp)
  lists a n hn := h.lists a n (h'.lists a n hn)
  leads a n o hn hl := h'.leads a n o hn (h.leads a n o (h'.lists a n hn) hl)

theorem xtntAt (h : Shrinks s f s' f') {a : Nat × Nat} {b : Bptr} (hb : XtntAt s' a b) :
    XtntAt s a b := by
  rcases h.bptr a.1 a.2 with heq | ⟨c, _, heq⟩
  · exact ⟨heq ▸ hb.1, hb.2⟩
  · have hbc := hb.1.symm.trans heq
    exact absurd hb.2 (by rw [some.inj hbc]; simp)

end Shrinks

/-! ## 2. Emptying one block pointer -/

section
variable {s : PxnState} {f : Nat × Nat → List Nat} {p i : Nat} {b : Bptr}

theorem xtntAt_emptied {s' : PxnState} (hs' : s'.pxns = s.pxns) (hb : s.bptr? p i = some b)
    {a : Nat × Nat} {c : Bptr} :
    XtntAt (s'.modBptr p i ({ · with type := .empty })) a c ↔ a ≠ (p, i) ∧ XtntAt s a c := by
  have hset : (s'.modBptr p i ({ · with type := .empty })).pxns =
      (s.modBptr p i ({ · with type := .empty })).pxns := by
    simp only [PxnState.modBptr, PxnState.modPxn, hs']
  rw [xtntAt_set hset hb]
  simp

/-- Empty an extent that nothing is forged from. `f'` is what is left on the lists, and
    no record on them names the extent. -/
theorem Forest.empty (h : Forest s f) (hb : s.bptr? p i = some b) (hchild : f (p, i) = [])
    {s' : PxnState} {f' : Nat × Nat → List Nat} (hp : s'.pxns = s.pxns) (hr : s'.xrs = s.xrs)
    (hn : s'.nextXr = s.nextXr) (hnp : s'.nextPxn = s.nextPxn) (hL : Holds s'.links f')
    (hf' : ∀ a n, n ∈ f' a ↔ n ∈ f a ∧ s.xrs n ≠ (p, i)) :
    Forest (s'.modBptr p i ({ · with type := .empty })) f' where
  holds := hL
  record a xr hxr := by
    obtain ⟨hxr, hne⟩ := (hf' a xr).mp hxr
    obtain ⟨hlt, c, hc, hfr⟩ := h.record a xr hxr
    refine ⟨by simpa [hn] using hlt, c, ?_, hfr⟩
    rw [PxnState.modBptr_xrs, hr]
    exact (xtntAt_emptied hp hb).mpr ⟨hne, hc⟩
  parent a c hc a' hfr := by
    obtain ⟨hne, hc⟩ := (xtntAt_emptied hp hb).mp hc
    obtain ⟨xr, hxr, heq⟩ := h.parent a c hc a' hfr
    exact ⟨xr, (hf' a' xr).mpr ⟨hxr, heq ▸ hne⟩, by simpa [hr] using heq⟩
  uniq a xr xr' hxr hxr' heq :=
    h.uniq a xr xr' ((hf' a xr).mp hxr).1 ((hf' a xr').mp hxr').1 (by simpa [hr] using heq)
  head a ha := by
    obtain ⟨n, hn⟩ := exists_mem_of_ne_nil _ ha
    have hnf := ((hf' a n).mp hn).1
    obtain ⟨c, hc⟩ := h.head a (ne_nil_of_mem hnf)
    refine ⟨c, (xtntAt_emptied hp hb).mpr ⟨?_, hc⟩⟩
    rintro rfl
    rw [hchild] at hnf
    exact absurd hnf (by simp)
  self a c hc := h.self a c ((xtntAt_emptied hp hb).mp hc).2
  fresh q hq := by
    refine PxnState.modPxn_none.mpr ?_
    rw [hp]
    exact h.fresh q (by simpa [hnp] using hq)

theorem Shrinks.emptied (hb : s.bptr? p i = some b) (hbt : b.type = .xtnt ∨ b.type = .empty)
    {s' : PxnState} {f' : Nat × Nat → List Nat} (hp : s'.pxns = s.pxns) (hr : s'.xrs = s.xrs)
    (hl : ∀ a n, n ∈ f' a → n ∈ f a)
    (hleads : ∀ a n o, n ∈ f' a → Leads s.links o n → Leads s'.links o n) :
    Shrinks s f (s'.modBptr p i ({ · with type := .empty })) f' where
  xrs := hr
  bptr q j := by
    have hbp : ∀ q j, s'.bptr? q j = s.bptr? q j := fun q j => by simp [PxnState.bptr?, hp]
    rw [PxnState.modBptr_bptr?, hbp, hbp]
    split
    · rename_i heq
      obtain ⟨rfl, rfl⟩ := heq
      rcases hbt with hbt | hbt
      · exact .inr ⟨b, ⟨hb, hbt⟩, by rw [hb]; rfl⟩
      · exact .inl (by rw [hb, map_some, ← hbt])
    · exact .inl rfl
  lists := hl
  leads := hleads

end

/-! ## 3. The loops of `pxn_remove_xtnt` -/

/-- The search along a list finds the record of `(p, i)`, if the list has one. -/
theorem findRef_spec : ∀ {l : List Nat} {src : (Nat × Nat) ⊕ Nat}
    {o : Option Nat} {fuel : Nat} {r : Option Nat}, Seg s.links src o l →
    findRef s p i fuel o = some r →
    (r = none → ∀ xr ∈ l, s.xrs xr ≠ (p, i)) ∧ ∀ xr, r = some xr → xr ∈ l ∧ s.xrs xr = (p, i) := by
  intro l
  induction l with
  | nil =>
    intro src o fuel r hseg h
    obtain rfl : o = none := hseg
    obtain rfl : none = r := by simpa [findRef] using h
    simp
  | cons a l ih =>
    intro src o fuel r hseg h
    obtain ⟨rfl, -, hrest⟩ := hseg
    cases fuel with
    | zero => exact absurd h (by simp [findRef])
    | succ fuel =>
      unfold findRef at h
      split at h
      · rename_i heq
        obtain rfl : some a = r := by simpa using h
        exact ⟨by simp, fun xr hxr => by cases hxr; exact ⟨by simp, heq⟩⟩
      rename_i hne
      obtain ⟨hnone, hsome⟩ := ih hrest h
      refine ⟨fun hr xr hxr => ?_, fun xr hxr => ?_⟩
      · rcases mem_cons.mp hxr with rfl | hxr
        · exact hne
        · exact hnone hr xr hxr
      · exact ⟨mem_cons_of_mem _ (hsome xr hxr).1, (hsome xr hxr).2⟩

/-- What a recursive call is good for: it leaves a forest, in which `p` has no extent
    that `x` contains. -/
def RemoveSpec (remove : PxnState → Nat → Xtnt → Option PxnState) : Prop :=
  ∀ s f p x s', Forest s f → remove s p x = some s' →
    ∃ f', Forest s' f' ∧ Shrinks s f s' f' ∧
      ∀ i b, XtntAt s' (p, i) b → xtntDominates x b.xtnt = false

/-- A recursive call turns no walk back. -/
def KeepsWalks (remove : PxnState → Nat → Xtnt → Option PxnState) : Prop :=
  ∀ s f p x s', Forest s f → remove s p x = some s' → ∀ l, Forward s.links l → Forward s'.links l

section
variable (hrem : RemoveSpec remove ∧ KeepsWalks remove)
include hrem

/-- The walk along the list of block pointer `h`. Everything still on the list lies ahead
    of it, so when it ends the list is empty. -/
theorem forgedToLoop_spec (h : Nat × Nat) (fuel : Nat) :
    ∀ {s : PxnState} {f : Nat × Nat → List Nat} {o : Option Nat} {s' : PxnState}, Forest s f →
      (∀ n ∈ f h, Leads s.links o n) → forgedToLoop remove fuel s o = some s' →
      ∃ f', Forest s' f' ∧ Shrinks s f s' f' ∧ f' h = [] ∧
        ∀ l, Forward s.links l → Forward s'.links l := by
  intro s f o s' hF hahead hs
  fun_induction forgedToLoop remove fuel s o generalizing f with
  | case1 =>
    cases hs
    refine ⟨f, hF, .refl _ f, eq_nil_iff_forall_not_mem.mpr fun n hn => ?_, fun _ hl => hl⟩
    cases hahead n hn
  | case2 => cases hs
  | case3 fuel s xr ih =>
    obtain ⟨b, hb, hs⟩ := bind_eq_some_iff.mp hs
    obtain ⟨s₁, hs₁, hs⟩ := bind_eq_some_iff.mp hs
    obtain ⟨f₁, hF₁, hsh, hgone⟩ := hrem.1 _ _ _ _ _ hF hs₁
    have hxr : xr ∉ f₁ h := by
      -- its extent contains itself, so the call has removed it
      intro hmem
      obtain ⟨-, c, hc, -⟩ := hF₁.record h xr hmem
      rw [hsh.xrs] at hc
      obtain rfl : b = c := some.inj (hb.symm.trans (hsh.xtntAt hc).1)
      exact absurd (hF₁.self _ _ hc) (by rw [hgone _ _ hc]; simp)
    have hahead₁ : ∀ n ∈ f₁ h, Leads s₁.links (s₁.links.next xr) n := by
      intro n hn
      have hl := hsh.leads h n _ hn (hahead n (hsh.lists h n hn))
      cases hl with
      | here => exact absurd hn hxr
      | there hl => exact hl
    obtain ⟨f', hF', hsh', hnil, hwalk⟩ := ih s₁ hF₁ hahead₁ hs
    exact ⟨f', hF', hsh.trans hsh', hnil,
      fun l hl => hwalk l (hrem.2 _ _ _ _ _ hF hs₁ l hl)⟩

omit hrem in
/-- What is unlinked is the record of `(p, i)`. If nothing is, no list has one. -/
theorem unlinkFromParent_cases (hF : Forest s f) (h : unlinkFromParent fuel s p i = some s') :
    (s' = s ∧ ∀ a n, n ∈ f a → s.xrs n ≠ (p, i)) ∨
      ∃ a xr, xr ∈ f a ∧ s.xrs xr = (p, i) ∧ s' = { s with links := s.links.remove xr } := by
  unfold unlinkFromParent at h
  obtain ⟨b, hb, h⟩ := bind_eq_some_iff.mp h
  have hfrom : ∀ a n, n ∈ f a → s.xrs n = (p, i) → b.forgedFrom = some a := by
    intro a n hn heq
    obtain ⟨-, c, hc, hcf⟩ := hF.record a n hn
    rw [heq] at hc
    rwa [some.inj (hb.symm.trans hc.1)]
  split at h
  · rename_i hfr
    cases h
    exact .inl ⟨rfl, fun a n hn heq => by simpa [hfr] using hfrom a n hn heq⟩
  rename_i q j hfr
  obtain ⟨Q, -, h⟩ := bind_eq_some_iff.mp h
  obtain ⟨r, hr, h⟩ := bind_eq_some_iff.mp h
  obtain ⟨hnone, hsome⟩ := findRef_spec (hF.holds.seg (q, j)) hr
  cases r with
  | none =>
    cases h
    refine .inl ⟨rfl, fun a n hn heq => ?_⟩
    obtain rfl : (q, j) = a := some.inj (hfr.symm.trans (hfrom a n hn heq))
    exact hnone rfl n hn heq
  | some xr =>
    cases h
    exact .inr ⟨(q, j), xr, (hsome xr rfl).1, (hsome xr rfl).2, rfl⟩

omit hrem in
/-- The body of the loop over block pointers, for one that is to go: its children are gone
    (`f (p, i) = []`), its record is unlinked and it is emptied. A call below this one may have
    emptied it already, record and all. -/
theorem unlink_empty_spec {s₁ : PxnState}
    (hF : Forest s f) (hchild : f (p, i) = []) {b : Bptr} (hb : s.bptr? p i = some b)
    (hbt : b.type = .xtnt ∨ b.type = .empty) (h : unlinkFromParent fuel s p i = some s₁) :
    ∃ f', Forest (s₁.modBptr p i ({ · with type := .empty })) f' ∧
      Shrinks s f (s₁.modBptr p i ({ · with type := .empty })) f' := by
  rcases unlinkFromParent_cases hF h with ⟨rfl, hnone⟩ | ⟨a, xr, hxr, hxrp, rfl⟩
  · exact ⟨f, hF.empty hb hchild rfl rfl rfl rfl hF.holds fun a n =>
        ⟨fun hn => ⟨hn, hnone a n hn⟩, fun hn => hn.1⟩,
      .emptied hb hbt rfl rfl (fun _ _ hn => hn) fun _ _ _ _ hl => hl⟩
  have hmem : ∀ c n, n ∈ update f a ((f a).erase xr) c ↔ n ∈ f c ∧ s.xrs n ≠ (p, i) := by
    intro c n
    by_cases hca : c = a
    · subst hca
      rw [update_self, (hF.holds.nodup c).mem_erase_iff]
      refine ⟨fun ⟨hne, hn⟩ => ⟨hn, fun heq => hne ?_⟩, fun ⟨hn, hne⟩ => ⟨?_, hn⟩⟩
      · exact hF.uniq c n xr hn hxr (heq.trans hxrp.symm)
      · rintro rfl; exact hne hxrp
    · rw [update_of_ne hca]
      refine ⟨fun hn => ⟨hn, fun heq => hca ?_⟩, fun hn => hn.1⟩
      -- both records name the extent, which was forged from one block pointer only
      obtain ⟨-, d, hd, hdf⟩ := hF.record c n hn
      obtain ⟨-, e, he, hef⟩ := hF.record a xr hxr
      rw [heq] at hd
      rw [hxrp] at he
      rw [he.unique hd, hdf] at hef
      exact some.inj hef
  refine ⟨_, hF.empty hb hchild rfl rfl rfl rfl (hF.holds.remove hxr) hmem,
    .emptied hb hbt rfl rfl (fun c n hn => ((hmem c n).mp hn).1) fun c n o hn hl => ?_⟩
  refine hl.remove hF.holds hxr ?_
  rintro rfl
  exact ((hmem c n).mp hn).2 hxrp

/-- One round of the loop over block pointers, for one that goes: what is known of the state
    after it. -/
theorem removeRound_spec {s₁ s₂ : PxnState} {rest : Nat} {b : Bptr} (hF : Forest s f) (hb : XtntAt s (p, i) b)
    (hs₁ : forgedToLoop remove fuel s (s.links.first (p, i)) = some s₁)
    (hs₂ : unlinkFromParent rest s₁ p i = some s₂) :
    ∃ f₁ f₂, Forest s₁ f₁ ∧ Shrinks s f s₁ f₁ ∧
      Forest (s₂.modBptr p i ({ · with type := .empty })) f₂ ∧
      Shrinks s₁ f₁ (s₂.modBptr p i ({ · with type := .empty })) f₂ ∧
      ∀ l, Forward s.links l → Forward s₂.links l := by
  obtain ⟨f₁, hF₁, hsh₁, hnil, hwalk⟩ := forgedToLoop_spec hrem (p, i) fuel hF
    (fun n hn => (hF.holds.seg (p, i)).leads n hn) hs₁
  -- the block pointer itself may have been emptied on the way
  obtain ⟨c, hc, hct⟩ : ∃ c, s₁.bptr? p i = some c ∧ (c.type = .xtnt ∨ c.type = .empty) := by
    rcases hsh₁.bptr p i with heq | ⟨c, -, heq⟩
    · exact ⟨b, heq.trans hb.1, .inl hb.2⟩
    · exact ⟨_, heq, .inr rfl⟩
  obtain ⟨f₂, hF₂, hsh₂⟩ := unlink_empty_spec hF₁ hnil hc hct hs₂
  refine ⟨f₁, f₂, hF₁, hsh₁, hF₂, hsh₂, fun l hl => ?_⟩
  rcases unlinkFromParent_cases hF₁ hs₂ with ⟨rfl, -⟩ | ⟨a, xr, hxr, -, rfl⟩
  · exact hwalk l hl
  · exact (hwalk l hl).remove hF₁.holds hxr

/-- The loop over the block pointers `i, …, i + left - 1` of `p`. -/
theorem removeLoop_spec {x : Xtnt} (left : Nat) :
    ∀ {i : Nat} {s : PxnState} {f : Nat × Nat → List Nat} {s' : PxnState}, Forest s f →
      removeLoop remove fuel p x left i s = some s' →
      ∃ f', Forest s' f' ∧ Shrinks s f s' f' ∧ ∀ l, Forward s.links l → Forward s'.links l := by
  induction left with
  | zero =>
    intro i s f s' hF hs
    obtain rfl : s = s' := by simpa [removeLoop] using hs
    exact ⟨f, hF, .refl s f, fun _ hl => hl⟩
  | succ left ih =>
    intro i s f s' hF hs
    unfold removeLoop at hs
    obtain ⟨b, hb, hs⟩ := bind_eq_some_iff.mp hs
    split at hs
    · rename_i hdom
      simp only [Bool.and_eq_true, decide_eq_true_eq] at hdom
      obtain ⟨s₁, hs₁, hs⟩ := bind_eq_some_iff.mp hs
      obtain ⟨s₂, hs₂, hs⟩ := bind_eq_some_iff.mp hs
      obtain ⟨f₁, f₂, -, hsh₁, hF₂, hsh₂, hwalk⟩ := removeRound_spec hrem hF ⟨hb, hdom.1⟩ hs₁ hs₂
      obtain ⟨f', hF', hsh', hwalk'⟩ := ih hF₂ hs
      exact ⟨f', hF', hsh₁.trans (hsh₂.trans hsh'), fun l hl => hwalk' l (hwalk l hl)⟩
    · exact ih hF hs

end

theorem pxnRemoveXtnt_keeps (fuel : Nat) :
    RemoveSpec (pxnRemoveXtnt fuel) ∧ KeepsWalks (pxnRemoveXtnt fuel) := by
  induction fuel with
  | zero => exact ⟨fun _ _ _ _ _ _ hs => (nomatch hs), fun _ _ _ _ _ _ hs => (nomatch hs)⟩
  | succ fuel ih =>
    have hloop : ∀ {s f p x s'}, Forest s f → pxnRemoveXtnt (fuel + 1) s p x = some s' →
        ∃ f', Forest s' f' ∧ Shrinks s f s' f' ∧
          ∀ l, Forward s.links l → Forward s'.links l := by
      intro s f p x s' hF hs
      obtain ⟨P, -, hs⟩ := bind_eq_some_iff.mp hs
      exact removeLoop_spec ih P.bptrs.length hF hs
    refine ⟨fun s f p x s' hF hs => ?_, fun s f p x s' hF hs => ?_⟩
    · obtain ⟨f', hF', hsh, -⟩ := hloop hF hs
      exact ⟨f', hF', hsh, fun i b hb => pxnRemoveXtnt_gone hs hb⟩
    · obtain ⟨f', -, -, hwalk⟩ := hloop hF hs
      exact hwalk

theorem pxnRemoveXtnt_spec (fuel : Nat) : RemoveSpec (pxnRemoveXtnt fuel) :=
  (pxnRemoveXtnt_keeps fuel).1

/-! ## 4. `pxn_dealloc` -/

/-- Every extent of `s'` is one of `s`. -/
def Fewer (s s' : PxnState) : Prop := ∀ h b, XtntAt s' h b → XtntAt s h b

theorem Forest.free (h : Forest s f)
    (hp : ∀ i b, ¬XtntAt s (p, i) b) : Forest (freePxn s p) f := by
  have hx : ∀ a b, XtntAt (freePxn s p) a b ↔ XtntAt s a b := by
    intro a b
    by_cases ha : a.1 = p
    · constructor
      · intro hb
        have := hb.1
        simp [PxnState.bptr?, freePxn, ha] at this
      · intro hb
        exact absurd (show XtntAt s (p, a.2) b from ha ▸ hb) (hp a.2 b)
    · simp [XtntAt, PxnState.bptr?, freePxn, ha]
  refine h.congr hx rfl rfl rfl fun q hq => ?_
  by_cases hqp : q = p
  · subst hqp; simp [freePxn]
  · simpa [freePxn, hqp] using h.fresh q hq

theorem Forest.modPxn (h : Forest s f) (p : Nat)
    {g : Pxn → Pxn} (hg : ∀ P, (g P).bptrs = P.bptrs) : Forest (s.modPxn p g) f := by
  refine h.congr (fun _ _ => xtntAt_modPxn p hg) rfl rfl rfl fun q hq => ?_
  exact PxnState.modPxn_none.mpr (h.fresh q hq)

def DeallocSpec (dealloc : PxnState → Nat → Option PxnState) : Prop :=
  ∀ s f p s', Forest s f → dealloc s p = some s' → ∃ f', Forest s' f' ∧ Fewer s s'

theorem deallocLoop_spec {sub : Nat} (hde : DeallocSpec (pxnDealloc sub)) (left : Nat) :
    ∀ {i : Nat} {s : PxnState} {f : Nat × Nat → List Nat} {s' : PxnState}, Forest s f →
      deallocLoop (pxnDealloc sub) fuel p left i s = some s' →
      ∃ f', Forest s' f' ∧ ∀ j b, i ≤ j → j < i + left → ¬XtntAt s' (p, j) b := by
  induction left with
  | zero =>
    intro i s f s' hF hs
    obtain rfl : s = s' := by simpa [deallocLoop] using hs
    exact ⟨f, hF, fun j b hij hji => by omega⟩
  | succ left ih =>
    intro i s f s' hF hs
    unfold deallocLoop at hs
    obtain ⟨b, hb, hs⟩ := bind_eq_some_iff.mp hs
    -- in each case: a step to `s₁`, after which block pointer `i` holds no extent
    obtain ⟨s₁, f₁, hF₁, hgone, hs⟩ : ∃ s₁ f₁, Forest s₁ f₁ ∧ (∀ c, ¬XtntAt s₁ (p, i) c) ∧
        deallocLoop (pxnDealloc sub) fuel p left (i + 1) s₁ = some s' := by
      have hkeep : b.type ≠ .xtnt → ∀ s₁, Prunes s s₁ → ∀ c, ¬XtntAt s₁ (p, i) c := by
        intro hbt s₁ hpr c hc
        have hc := hpr.xtntAt hc
        exact hbt (by rw [some.inj (hb.symm.trans hc.1)]; exact hc.2)
      cases hbt : b.type with
      | empty =>
        rw [hbt] at hs
        exact ⟨s, f, hF, hkeep (by simp [hbt]) s (.refl s), hs⟩
      | xtnt =>
        rw [hbt] at hs
        obtain ⟨s₁, hs₁, hs⟩ := bind_eq_some_iff.mp hs
        obtain ⟨f₁, hF₁, hsh, hgone⟩ := pxnRemoveXtnt_spec fuel _ _ _ _ _ hF hs₁
        refine ⟨s₁, f₁, hF₁, fun c hc => ?_, hs⟩
        obtain rfl : b = c := some.inj (hb.symm.trans (hsh.xtntAt hc).1)
        exact absurd (hF₁.self _ _ hc) (by rw [hgone _ _ hc]; simp)
      | pxn =>
        rw [hbt] at hs
        obtain ⟨s₁, hs₁, hs⟩ := bind_eq_some_iff.mp hs
        obtain ⟨f₁, hF₁, -⟩ := hde _ _ _ _ hF hs₁
        exact ⟨s₁, f₁, hF₁, hkeep (by simp [hbt]) s₁ (pxnDealloc_prunes _ _ _ _ hs₁), hs⟩
    obtain ⟨f', hF', hgone'⟩ := ih hF₁ hs
    refine ⟨f', hF', fun j c hij hji hc => ?_⟩
    rcases Nat.eq_or_lt_of_le hij with rfl | hlt
    · exact hgone c ((deallocLoop_prunes (pxnDealloc_prunes sub) left hs).xtntAt hc)
    · exact hgone' j c hlt (by omega) hc

theorem pxnDealloc_spec (fuel : Nat) : DeallocSpec (pxnDealloc fuel) := by
  induction fuel with
  | zero => exact fun s f p s' _ hs => absurd hs (by simp [pxnDealloc])
  | succ fuel ih =>
    intro s f p s' hF hs
    have hfew : Fewer s s' := fun _ _ hb => (pxnDealloc_prunes _ _ _ _ hs).xtntAt hb
    unfold pxnDealloc at hs
    obtain ⟨P, hP, hs⟩ := bind_eq_some_iff.mp hs
    have hF₀ := hF.modPxn p (g := fun Q => { Q with refcnt := P.refcnt - 1 }) fun _ => rfl
    dsimp only at hs
    split at hs
    · cases hs
      exact ⟨f, hF₀, hfew⟩
    obtain ⟨s₁, hs₁, hs⟩ := bind_eq_some_iff.mp hs
    cases hs
    obtain ⟨f₁, hF₁, hgone⟩ := deallocLoop_spec ih P.bptrs.length hF₀ hs₁
    refine ⟨f₁, hF₁.free fun i b hb => ?_, hfew⟩
    have hat := (deallocLoop_prunes (pxnDealloc_prunes fuel) _ hs₁).xtntAt hb
    have := ((xtntAt_modPxn p fun _ => by rfl).mp hat).lt_length hP
    exact hgone i b (Nat.zero_le i) (by omega) hb

/-! ## 5. Adding extents -/

section
variable {s : PxnState} {f : Nat × Nat → List Nat} {p i : Nat} {b : Bptr}

theorem Forest.fresh_modBptr (h : Forest s f) (g : Bptr → Bptr) (q : Nat)
    (hq : s.nextPxn ≤ q) : (s.modBptr p i g).pxns q = none :=
  PxnState.modPxn_none.mpr (h.fresh q hq)

variable {a : Nat × Nat} {g : Bptr → Bptr} {s' : PxnState}

theorem Forest.list_eq_nil (h : Forest s f) (ha : ∀ c, ¬XtntAt s a c) :
    f a = [] := by
  by_contra hne
  obtain ⟨c, hc⟩ := h.head a hne
  exact ha c hc

/-- `LIST_INIT` of a block pointer that holds no extent drops nothing. -/
theorem Forest.holds_init (h : Forest s f) (ha : ∀ c, ¬XtntAt s a c) :
    Holds (s.links.init a) f := by
  have := h.holds.init a
  rwa [← h.list_eq_nil ha, update_eq_self] at this

-- a free block pointer is rewritten
variable (h : Forest s f) (hb : s.bptr? p i = some b) (hbt : b.type = .empty)
  (hs' : s'.pxns = (s.modBptr p i g).pxns)

include hb hbt hs' in
theorem XtntAt.set_other {c : Bptr} (hc : XtntAt s a c) : XtntAt s' a c :=
  (xtntAt_set hs' hb).mpr (.inr ⟨fun ha => not_xtntAt_of_empty hb hbt c (ha ▸ hc), hc⟩)

variable (hnp : s'.nextPxn = s.nextPxn)
include h hb hbt hs' hnp

theorem Forest.plant (hg : (g b).type = .xtnt → (g b).forgedFrom = none ∧
      xtntDominates (g b).xtnt (g b).xtnt = true) (hr : s'.xrs = s.xrs)
    (hn : s'.nextXr = s.nextXr) (hL : Holds s'.links f) : Forest s' f := by
  have hold : ∀ {a c}, XtntAt s a c → XtntAt s' a c := fun hc => hc.set_other hb hbt hs'
  refine ⟨hL, fun a xr hxr => ?_, fun a c hc a' hfr => ?_, ?_, fun a ha => ?_, fun a c hc => ?_,
    fun q hq => ?_⟩
  · obtain ⟨hlt, c, hc, hcf⟩ := h.record a xr hxr
    rw [hr, hn]
    exact ⟨hlt, c, hold hc, hcf⟩
  · rw [hr]
    rcases (xtntAt_set hs' hb).mp hc with ⟨-, rfl, ht⟩ | ⟨-, hc⟩
    · exact absurd hfr (by rw [(hg ht).1]; simp)
    · exact h.parent a c hc a' hfr
  · rw [hr]; exact h.uniq
  · obtain ⟨c, hc⟩ := h.head a ha
    exact ⟨c, hold hc⟩
  · rcases (xtntAt_set hs' hb).mp hc with ⟨-, rfl, ht⟩ | ⟨-, hc⟩
    · exact (hg ht).2
    · exact h.self a c hc
  · rw [hs']
    exact h.fresh_modBptr g q (hnp ▸ hq)

/-- Put an extent there that was forged from block pointer `a`, with its record. -/
theorem Forest.graft {c : Bptr} (ha : XtntAt s a c)
    (hgt : (g b).type = .xtnt) (hg : (g b).forgedFrom = some a)
    (hself : xtntDominates (g b).xtnt (g b).xtnt = true)
    (hr : s'.xrs = update s.xrs s.nextXr (p, i)) (hn : s'.nextXr = s.nextXr + 1)
    (hL : s'.links = (s.links.init (p, i)).insertHead a s.nextXr) :
    Forest s' (update f a (s.nextXr :: f a)) := by
  have hfree : ∀ c, ¬XtntAt s (p, i) c := not_xtntAt_of_empty hb hbt
  have hold : ∀ {e c}, XtntAt s e c → XtntAt s' e c := fun hc => hc.set_other hb hbt hs'
  have hnew : XtntAt s' (p, i) (g b) := (xtntAt_set hs' hb).mpr (.inl ⟨rfl, rfl, hgt⟩)
  have hlt : ∀ e xr, xr ∈ f e → xr ≠ s.nextXr := fun e xr hxr => (h.record e xr hxr).1.ne
  have hmem : ∀ {e xr}, xr ∈ update f a (s.nextXr :: f a) e ↔
      xr = s.nextXr ∧ e = a ∨ xr ∈ f e := by
    intro e xr
    by_cases he : e = a
    · subst he; simp
    · simp [he]
  have hxrs : ∀ e xr, xr ∈ f e → s'.xrs xr = s.xrs xr := fun e xr hxr => by
    rw [hr, update_of_ne (hlt e xr hxr)]
  have hxrsNew : s'.xrs s.nextXr = (p, i) := by rw [hr, update_self]
  -- the new record is the only one that names the new extent
  have hother : ∀ e xr, xr ∈ f e → s.xrs xr ≠ (p, i) := by
    intro e xr hxr heq
    obtain ⟨-, d, hd, -⟩ := h.record e xr hxr
    exact hfree d (heq ▸ hd)
  refine ⟨?_, fun e xr hxr => ?_, fun e d hd e' hfr => ?_, fun e xr xr' hxr hxr' heq => ?_,
    fun e he => ?_, fun e d hd => ?_, fun q hq => ?_⟩
  · rw [hL]
    exact (h.holds_init hfree).insertHead fun e hne => hlt e _ hne rfl
  · rcases hmem.mp hxr with ⟨rfl, rfl⟩ | hxr
    · exact ⟨by omega, g b, by rw [hxrsNew]; exact hnew, hg⟩
    · obtain ⟨hl, d, hd, hdf⟩ := h.record e xr hxr
      exact ⟨by omega, d, by rw [hxrs e xr hxr]; exact hold hd, hdf⟩
  · rcases (xtntAt_set hs' hb).mp hd with ⟨rfl, rfl, -⟩ | ⟨-, hd⟩
    · obtain rfl : a = e' := some.inj (hg.symm.trans hfr)
      exact ⟨s.nextXr, hmem.mpr (.inl ⟨rfl, rfl⟩), hxrsNew⟩
    · obtain ⟨xr, hxr, heq⟩ := h.parent e d hd e' hfr
      exact ⟨xr, hmem.mpr (.inr hxr), by rw [hxrs e' xr hxr, heq]⟩
  · rcases hmem.mp hxr with ⟨rfl, rfl⟩ | hin
    · rcases hmem.mp hxr' with ⟨rfl, -⟩ | hin'
      · rfl
      · rw [hxrsNew, hxrs e xr' hin'] at heq
        exact absurd heq.symm (hother e xr' hin')
    · rcases hmem.mp hxr' with ⟨rfl, rfl⟩ | hin'
      · rw [hxrsNew, hxrs e xr hin] at heq
        exact absurd heq (hother e xr hin)
      · rw [hxrs e xr hin, hxrs e xr' hin'] at heq
        exact h.uniq e xr xr' hin hin' heq
  · by_cases hea : e = a
    · subst hea; exact ⟨c, hold ha⟩
    rw [update_of_ne hea] at he
    obtain ⟨d, hd⟩ := h.head e he
    exact ⟨d, hold hd⟩
  · rcases (xtntAt_set hs' hb).mp hd with ⟨-, rfl, -⟩ | ⟨-, hd⟩
    · exact hself
    · exact h.self e d hd
  · rw [hs']
    exact h.fresh_modBptr g q (hnp ▸ hq)

end

/-! ## 6. The calls -/

section
variable {s : PxnState} {f : Nat × Nat → List Nat}

theorem Forest.pxnAlloc (h : Forest s f) (pc xc : BitVec 8) (bs : BitVec 16) (cp cx : Cap)
    (n : XnName) (mem : Option (Nat → AclEntry)) :
    Forest (pxnAlloc s pc xc bs cp cx n mem).2 f := by
  have hold : ∀ {a b}, XtntAt (Exokernel.pxnAlloc s pc xc bs cp cx n mem).2 a b → XtntAt s a b :=
    xtntAt_pxnAlloc
  rcases pxnAlloc_cases s pc xc bs cp cx n mem with ⟨e, o, heq⟩ | ⟨junk, o, -, -, heq⟩
  · rw [heq]
    exact h.congr (fun _ _ => Iff.rfl) rfl rfl rfl h.fresh
  rw [heq] at hold ⊢
  refine h.congr (fun a b => ⟨hold, fun hb => ?_⟩) rfl rfl rfl fun q hq => ?_
  · have ha : a.1 ≠ s.nextPxn := by
      rintro ha
      have := hb.1
      simp [PxnState.bptr?, ha, h.fresh s.nextPxn (le_refl _)] at this
    simpa [XtntAt, PxnState.bptr?, ha] using hb
  · dsimp only at hq ⊢
    rw [update_of_ne (by omega)]
    exact h.fresh q (by omega)

theorem Forest.pxnKernelAddXtnt (h : Forest s f) (n : XnName) {x : Xtnt}
    (hx : xtntDominates x x = true) : Forest (pxnKernelAddXtnt s n x).2 f := by
  rcases pxnKernelAddXtnt_cases s n x with heq | ⟨p, P, i, -, hP, hi, heq⟩
  · rw [heq]; exact h
  obtain ⟨b, hb, hbt⟩ := findFreeBptr_some hP hi
  rw [heq]
  exact h.plant hb hbt rfl rfl (fun _ => ⟨rfl, hx⟩) rfl rfl
    (h.holds_init (not_xtntAt_of_empty hb hbt))

theorem Forest.forgeXtnt (h : Forest s f) {src j dst i : Nat} {x : Xtnt} (freeze : Bool)
    (hx : xtntDominates x x = true) {b c : Bptr} (hb : s.bptr? dst i = some b)
    (hbt : b.type = .empty) (hc : XtntAt s (src, j) c) :
    ∃ f', Forest (forgeXtnt s src j dst i x freeze) f' := by
  refine ⟨update f (src, j) (s.nextXr :: f (src, j)), ?_⟩
  unfold Exokernel.forgeXtnt
  dsimp only
  generalize hs₁ : ({ PxnState.modBptr s dst i _ with xrs := _, nextXr := _, links := _ } :
    PxnState) = s₁
  have hF : Forest s₁ (update f (src, j) (s.nextXr :: f (src, j))) := by
    subst hs₁
    exact h.graft hb hbt rfl rfl hc rfl rfl hx rfl rfl rfl
  split
  · exact hF.modPxn dst fun _ => rfl
  · exact hF

theorem Forest.unforgeXtnt (h : Forest s f) {dst i : Nat} {b : Bptr} (x : Xtnt)
    (hb : s.bptr? dst i = some b) (hbt : b.type = .empty) : Forest (unforgeXtnt s dst i x) f :=
  h.plant (g := ({ · with type := .empty, xtnt := x })) hb hbt rfl rfl (by simp) rfl rfl
    (h.holds_init (not_xtntAt_of_empty hb hbt))

theorem Forest.pxnAddXtnt (h : Forest s f) {src : Option Nat} {dst : Nat} {x : Xtnt}
    (hx : xtntDominates x x = true) {cd cs cx : Cap} {mem : Bool}
    {r : Except Errno Unit × PxnState} (hr : pxnAddXtnt s src dst x cd cs cx mem = some r) :
    ∃ f', Forest r.2 f' := by
  rcases pxnAddXtnt_cases hr with heq | ⟨D, -, -, heq⟩ | ⟨p, S, D, j, i, -, hS, hD, -, hj, hi, heq⟩
  · rw [heq]; exact ⟨f, h⟩
  · rw [heq]; exact ⟨f, h.pxnKernelAddXtnt _ hx⟩
  obtain ⟨b, hb, hbt⟩ := findFreeBptr_some hD hi
  obtain ⟨c, hc, -⟩ := findDominatingXtnt_some hS hj
  rcases heq with heq | heq
  · rw [heq]; exact h.forgeXtnt _ hx hb hbt hc
  · rw [heq]; exact ⟨f, h.unforgeXtnt x hb hbt⟩

end

/-- The condition on a call: the extent it adds contains itself, and the pxn it makes fits
    the size it is allocated with. -/
def PxnOp.SelfContained : PxnOp → Prop
  | .alloc _ pc xc bs _ _ _ _ => pxnSize pc xc bs < 2 ^ 16
  | .addXtnt _ _ _ x _ _ _ _ => xtntDominates x x = true
  | .kernelAddXtnt _ x => xtntDominates x x = true
  | _ => True

theorem Forest.exec (h : Forest s f) {op : PxnOp}
    (hok : op.SelfContained) (hs : op.exec s = some s') : ∃ f', Forest s' f' := by
  cases op with
  | alloc e pc xc bs kp kx n mem =>
    cases hs
    unfold sysPxnAlloc
    split
    · exact ⟨f, h⟩
    split
    · exact ⟨f, h⟩
    · exact ⟨f, h.pxnAlloc _ _ _ _ _ _ _⟩
  | addCap e n kn kp flag =>
    cases hs
    rcases sysPxnAddCap_cases s e n kn kp flag with heq | ⟨p, P, g, -, -, heq, hg⟩
    · rw [heq]; exact ⟨f, h⟩
    · rw [heq]; exact ⟨f, h.modPxn p fun Q => (hg Q).2⟩
  | addXtnt e src dst x kd ks kx mem =>
    obtain ⟨r, hr, rfl⟩ := map_eq_some_iff.mp hs
    rcases sysPxnAddXtnt_cases hr with heq | ⟨src, dst, cd, cs, cx, -, hadd, -⟩
    · rw [heq]; exact ⟨f, h⟩
    · exact h.pxnAddXtnt hok hadd
  | addPxn e dst src kd ks =>
    obtain ⟨r, hr, rfl⟩ := map_eq_some_iff.mp hs
    rcases sysPxnAddPxn_cases hr with heq | ⟨src, dst, S, D, i, -, -, -, hD, hi, heq⟩
    · rw [heq]; exact ⟨f, h⟩
    obtain ⟨b, hb, hbt⟩ := findFreeBptr_some hD hi
    have hF := h.modPxn src (g := fun P => { P with refcnt := P.refcnt + 1 }) fun _ => rfl
    rw [heq]
    refine ⟨f, hF.plant (b := b) ?_ hbt rfl rfl (by simp) rfl rfl hF.holds⟩
    rw [PxnState.modPxn_bptr? _ _ _ _ _ fun _ => by rfl]
    exact hb
  | removeXtnt fuel e n x k =>
    obtain ⟨r, hr, rfl⟩ := map_eq_some_iff.mp hs
    rcases sysPxnRemoveXtnt_cases hr with heq | ⟨p, -, hrem⟩
    · rw [heq]; exact ⟨f, h⟩
    · obtain ⟨f', hF', -, -⟩ := pxnRemoveXtnt_spec fuel _ _ _ _ _ h hrem
      exact ⟨f', hF'⟩
  | dealloc fuel e k n =>
    obtain ⟨r, hr, rfl⟩ := map_eq_some_iff.mp hs
    rcases sysPxnDealloc_cases hr with heq | ⟨p, -, hde⟩
    · rw [heq]; exact ⟨f, h⟩
    · obtain ⟨f', hF', -⟩ := pxnDealloc_spec fuel _ _ _ _ h hde
      exact ⟨f', hF'⟩
  | kernelAddXtnt n x =>
    cases hs
    exact ⟨f, h.pxnKernelAddXtnt n hok⟩

/-! ## 7. Runs -/

/-- `l` are the records on the `xtnt_forged_to` list of block pointer `h`. -/
def ForgedTo (s : PxnState) (h : Nat × Nat) (l : List Nat) : Prop :=
  Seg s.links (.inl h) (s.links.first h) l

/-- No dangling references: an extent that was forged hangs below one that is there, and is
    recorded there exactly once; a record names an extent that was forged from its holder. -/
structure Linked (s : PxnState) : Prop where
  up : ∀ h b, XtntAt s h b → ∀ h', b.forgedFrom = some h' →
    (∃ b', XtntAt s h' b') ∧ ∃ l, ForgedTo s h' l ∧ l.countP (fun xr => s.xrs xr = h) = 1
  down : ∀ h b, XtntAt s h b → ∃ l, ForgedTo s h l ∧
    ∀ xr ∈ l, ∃ b', XtntAt s (s.xrs xr) b' ∧ b'.forgedFrom = some h

/-- `h` is block pointer `h'`, or its extent was forged from one that descends from it. -/
def Descends (s : PxnState) : Nat × Nat → Nat × Nat → Prop :=
  Relation.ReflTransGen fun h h' => ∃ b, XtntAt s h b ∧ b.forgedFrom = some h'

/-- Going from `s` to `s'` only took extents away, with everything forged from them, and
    left no dangling reference. -/
structure Revoked (s s' : PxnState) : Prop where
  fewer : Fewer s s'
  complete : ∀ h h', Descends s h h' → (∃ b, XtntAt s h' b) → (¬∃ b, XtntAt s' h' b) →
    ¬∃ b, XtntAt s' h b
  linked : Linked s'

theorem Forest.linked (h : Forest s f) : Linked s where
  up a b hb a' hfr := by
    obtain ⟨xr, hxr, heq⟩ := h.parent a b hb a' hfr
    refine ⟨h.head a' (ne_nil_of_mem hxr), f a', h.holds.seg a', ?_⟩
    refine Tally.countP_eq_one (h.holds.nodup a') hxr (by simpa using heq) ?_
    intro c hc hca
    exact h.uniq a' c xr hc hxr (by simpa [heq] using hca)
  down a b _ := ⟨f a, h.holds.seg a, fun xr hxr => (h.record a xr hxr).2⟩

/-- In a forest an extent that is left has its parent left, so nothing descends from what
    was taken away. -/
theorem Forest.revoked {f' : Nat × Nat → List Nat} (h' : Forest s' f')
    (hfew : Fewer s s') : Revoked s s' where
  fewer := hfew
  complete a a' hdesc _ hgone := by
    rintro ⟨b, hb⟩
    refine hgone ?_
    induction hdesc using Relation.ReflTransGen.head_induction_on generalizing b with
    | refl => exact ⟨b, hb⟩
    | head hstep _ ih =>
      obtain ⟨c, hc, hfr⟩ := hstep
      obtain rfl := (hfew _ _ hb).unique hc
      obtain ⟨⟨d, hd⟩, -⟩ := h'.linked.up _ _ hb _ hfr
      exact ih d hd
  linked := h'.linked

theorem forest_empty : Forest .empty fun _ => [] where
  holds := ⟨fun _ => rfl, fun _ => List.nodup_nil, fun _ _ _ h => absurd h (by simp)⟩
  record _ _ h := absurd h (by simp)
  parent _ _ h := absurd h.1 (by simp [PxnState.bptr?, PxnState.empty])
  uniq _ _ _ h := absurd h (by simp)
  head _ h := absurd rfl h
  self _ _ h := absurd h.1 (by simp [PxnState.bptr?, PxnState.empty])
  fresh _ _ := rfl

/-- **Revocation is complete if every extent contains itself.** In every state that a run
    of such calls reaches no reference dangles, and `pxn_remove_xtnt` and `pxn_dealloc`,
    when they return, have taken away everything forged from what they removed. -/
theorem revocation_of_selfContained {s : PxnState}
    (hrun : Run.Reaches (fun s op s' => PxnOp.exec s op = some s') (fun _ op => op.SelfContained)
      .empty s) :
    Linked s ∧
      (∀ fuel p x s', pxnRemoveXtnt fuel s p x = some s' →
        Revoked s s' ∧ ∀ i b, XtntAt s' (p, i) b → xtntDominates x b.xtnt = false) ∧
      ∀ fuel p s', pxnDealloc fuel s p = some s' → Revoked s s' := by
  obtain ⟨f, hF⟩ : ∃ f, Forest s f :=
    hrun.invariant (I := fun s => ∃ f, Forest s f) ⟨_, forest_empty⟩
      fun _ _ _ ⟨_, hF⟩ hok hs => hF.exec hok hs
  refine ⟨hF.linked, fun fuel p x s' hs => ?_, fun fuel p s' hs => ?_⟩
  · obtain ⟨f', hF', hsh, hgone⟩ := pxnRemoveXtnt_spec fuel _ _ _ _ _ hF hs
    exact ⟨hF'.revoked fun _ _ hb => hsh.xtntAt hb, hgone⟩
  · obtain ⟨f', hF', hfew⟩ := pxnDealloc_spec fuel _ _ _ _ hF hs
    exact hF'.revoked hfew

/-- A whole disk's pxn, a second pxn on the disk, and an extent forged into it from the
    first 100 blocks. -/
def forgeOps (x : Xtnt) : List PxnOp :=
  let e := bootEnv rootCap
  let junk : Option (Nat → AclEntry) := some fun _ => .ofCap Cap.null
  [.alloc e 1 1 1 0 0 ⟨0, 0⟩ junk, .kernelAddXtnt ⟨0, 0⟩ ⟨0, 100⟩, .alloc e 1 1 1 0 0 ⟨0, 1⟩ junk,
    .addXtnt e (some ⟨0, 0⟩) ⟨0, 1⟩ x 0 0 0 true]

/-- An extent of ten blocks goes with the one it was forged from. -/
theorem revocation_forged_ten :
    ∃ s s', Run.execAll PxnOp.exec (forgeOps ⟨50, 10⟩) .empty = some s ∧
      pxnRemoveXtnt 5 s 0 ⟨0, 100⟩ = some s' ∧ Revoked s s' := by
  refine ⟨_, _, rfl, rfl, ((revocation_of_selfContained ?_).2.1 5 0 ⟨0, 100⟩ _ rfl).1⟩
  refine Run.reaches_execAll (forgeOps ⟨50, 10⟩) (fun _ op hop => ?_) rfl
  simp only [forgeOps, mem_cons, not_mem_nil, or_false] at hop
  rcases hop with rfl | rfl | rfl | rfl <;> simp only [PxnOp.SelfContained] <;> decide

/-- **An extent of length zero outlives the extent it was forged from**: block pointer 0 of
    pxn 1 still names block pointer 0 of pxn 0 as its origin, which is empty. -/
theorem revocation_zero_length :
    ∃ s s', Run.Reaches (fun s op s' => PxnOp.exec s op = some s') (fun _ _ => True) .empty s ∧
      pxnRemoveXtnt 5 s 0 ⟨0, 100⟩ = some s' ∧ ¬Linked s' := by
  refine ⟨_, _, Run.reaches_execAll (forgeOps ⟨50, 0⟩) (fun _ _ _ => trivial) rfl, rfl, ?_⟩
  intro hlinked
  obtain ⟨⟨b, hb⟩, -⟩ := hlinked.up (1, 0) ⟨.xtnt, ⟨50, 0⟩, some (0, 0), 0⟩ ⟨rfl, rfl⟩ (0, 0) rfl
  have hempty : b = ⟨.empty, ⟨0, 100⟩, none, 0⟩ := some.inj (hb.1.symm.trans rfl)
  exact absurd hb.2 (by rw [hempty]; decide)

end Exokernel
