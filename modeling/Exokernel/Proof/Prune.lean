import Exokernel.Kern.Pxn

/-!
# Extents, and what removing them can do to any pxn

`pxn_remove_xtnt` and `pxn_dealloc` walk pointers, and in a state whose links are broken
they may walk anywhere. **Whatever they walk, they only take away**: names, access lists
and freeze flags stay, and a block pointer that is not empty afterwards is what it was.
Unlike the forest this needs no invariant, so it also holds in the states in which the
forest is broken.
-/
set_option autoImplicit false

namespace Exokernel

open Option

/-! ## 1. Extents -/

/-- Block pointer `h` holds an extent. -/
def XtntAt (s : PxnState) (h : Nat × Nat) (b : Bptr) : Prop :=
  s.bptr? h.1 h.2 = some b ∧ b.type = .xtnt

variable {P : Pxn} {b : Bptr} {fuel i p : Nat} {s : PxnState} {x : Xtnt}

theorem XtntAt.unique {h : Nat × Nat} {b' : Bptr} (hb : XtntAt s h b)
    (hb' : XtntAt s h b') : b = b' := by
  have := hb.1.symm.trans hb'.1
  exact some.inj this

/-- A block pointer that is there has a number below `pxn_bptr_sz`. -/
theorem XtntAt.lt_length
    (h : XtntAt s (p, i) b) (hP : s.pxns p = some P) : i < P.bptrs.length := by
  have hb := h.1
  simp only [PxnState.bptr?, hP, bind_some] at hb
  exact (List.getElem?_eq_some_iff.mp hb).1

theorem findFreeBptr_some (hP : s.pxns p = some P)
    (h : findFreeBptr P = some i) : ∃ b, s.bptr? p i = some b ∧ b.type = .empty := by
  obtain ⟨hlt, hb, -⟩ := List.findIdx?_eq_some_iff_getElem.mp h
  exact ⟨P.bptrs[i], by simp [PxnState.bptr?, hP], by simpa using hb⟩

/-- What `find_dominating_xtnt` finds is an extent that contains `x`. -/
theorem findDominatingXtnt_some
    (hP : s.pxns p = some P) (h : findDominatingXtnt P x = some i) :
    ∃ b, XtntAt s (p, i) b ∧ xtntDominates b.xtnt x = true := by
  obtain ⟨hlt, hb, -⟩ := List.findIdx?_eq_some_iff_getElem.mp h
  simp only [Bool.and_eq_true, decide_eq_true_eq] at hb
  exact ⟨P.bptrs[i], ⟨by simp [PxnState.bptr?, hP], hb.1⟩, hb.2⟩

section
variable {s : PxnState} {p i : Nat} {b : Bptr}

/-- Block pointer `(p, i)` is rewritten; the others hold what they held. -/
theorem xtntAt_set {s' : PxnState} {g : Bptr → Bptr} (hs' : s'.pxns = (s.modBptr p i g).pxns)
    (hb : s.bptr? p i = some b) {a : Nat × Nat} {c : Bptr} :
    XtntAt s' a c ↔
      a = (p, i) ∧ c = g b ∧ (g b).type = .xtnt ∨ a ≠ (p, i) ∧ XtntAt s a c := by
  have hbp : ∀ q j, s'.bptr? q j = (s.modBptr p i g).bptr? q j := fun q j => by
    simp [PxnState.bptr?, hs']
  unfold XtntAt
  rw [hbp, PxnState.modBptr_bptr?, hb]
  by_cases ha : a = (p, i)
  · subst ha
    simp only [and_self, if_true, map_some, some.injEq, true_and, ne_eq, not_true,
      false_and, or_false]
    constructor
    · rintro ⟨rfl, h⟩; exact ⟨rfl, h⟩
    · rintro ⟨rfl, h⟩; exact ⟨rfl, h⟩
  · have : ¬(a.1 = p ∧ a.2 = i) := fun h => ha (Prod.ext h.1 h.2)
    simp [this, ha]

theorem not_xtntAt_of_empty (hb : s.bptr? p i = some b) (hbt : b.type = .empty) (c : Bptr) :
    ¬XtntAt s (p, i) c := by
  intro hc
  rw [some.inj (hb.symm.trans hc.1), hc.2] at hbt
  exact absurd hbt (by simp)

end

theorem xtntAt_modPxn (p : Nat) {g : Pxn → Pxn}
    (hg : ∀ P, (g P).bptrs = P.bptrs) {a : Nat × Nat} :
    XtntAt (s.modPxn p g) a b ↔ XtntAt s a b := by
  simp [XtntAt, PxnState.modPxn_bptr? _ _ _ _ _ hg]

/-- What a rewritten block pointer may be: the others hold what they held. -/
theorem modify_bptr {l : List Bptr} {i j : Nat} {g : Bptr → Bptr}
    (h : (l.modify i g)[j]? = some b) : l[j]? = some b ∨ j = i ∧ ∃ c, l[i]? = some c ∧ b = g c := by
  rw [List.getElem?_modify] at h
  by_cases hij : i = j
  · subst hij
    simp only [if_true, map_eq_map] at h
    obtain ⟨c, hc, rfl⟩ := map_eq_some_iff.mp h
    exact .inr ⟨rfl, c, hc, rfl⟩
  · simp only [hij, if_false, map_eq_map, Option.map_id_fun', id_eq] at h
    exact .inl h

/-- An extent that is there after `pxn_alloc` was there before. -/
theorem xtntAt_pxnAlloc {pc xc : BitVec 8} {bs : BitVec 16} {cp cx : Cap} {n : XnName}
    {mem : Option (Nat → AclEntry)} {a : Nat × Nat}
    (h : XtntAt (pxnAlloc s pc xc bs cp cx n mem).2 a b) : XtntAt s a b := by
  rcases pxnAlloc_bptr h.1 with hold | hempty
  · exact ⟨hold, h.2⟩
  · exact absurd (h.2.symm.trans hempty) (by simp)

/-! ## 2. Taking away -/

/-- `P'` is `P` with some block pointers emptied and another reference count. -/
structure Pxn.Pruned (P P' : Pxn) : Prop where
  name : P'.name = P.name
  xtntAcl : P'.xtntAcl = P.xtntAcl
  pxnAcl : P'.pxnAcl = P.pxnAcl
  frozen : P'.frozen = P.frozen
  bptr : ∀ (i : Nat) (b : Bptr), P'.bptrs[i]? = some b → b.type ≠ .empty → P.bptrs[i]? = some b

theorem Pxn.Pruned.refl (P : Pxn) : P.Pruned P :=
  ⟨rfl, rfl, rfl, rfl, fun _ _ h _ => h⟩

theorem Pxn.Pruned.trans {P' P'' : Pxn} (h : P.Pruned P') (h' : P'.Pruned P'') :
    P.Pruned P'' :=
  ⟨h'.name.trans h.name, h'.xtntAcl.trans h.xtntAcl, h'.pxnAcl.trans h.pxnAcl,
    h'.frozen.trans h.frozen, fun i b hb hne => h.bptr i b (h'.bptr i b hb hne) hne⟩

/-- Every pxn of `s'` is a pruned pxn of `s`. -/
structure Prunes (s s' : PxnState) : Prop where
  pxns : ∀ p P', s'.pxns p = some P' → ∃ P, s.pxns p = some P ∧ P.Pruned P'
  cache : ∀ p, p ∈ s'.cache → p ∈ s.cache
  kept : ∀ p P', s'.pxns p = some P' → p ∈ s.cache → p ∈ s'.cache
  nextPxn : s'.nextPxn = s.nextPxn

namespace Prunes

variable {s s' s'' : PxnState}

theorem ofEq (hp : s'.pxns = s.pxns) (hc : s'.cache = s.cache) (hn : s'.nextPxn = s.nextPxn) :
    Prunes s s' :=
  ⟨fun _ P' h => ⟨P', hp ▸ h, .refl P'⟩, fun _ h => hc ▸ h, fun _ _ _ h => hc ▸ h, hn⟩

theorem refl (s : PxnState) : Prunes s s := .ofEq rfl rfl rfl

theorem trans (h : Prunes s s') (h' : Prunes s' s'') : Prunes s s'' where
  pxns p P'' hP'' := by
    obtain ⟨P', hP', h₂⟩ := h'.pxns p P'' hP''
    obtain ⟨P, hP, h₁⟩ := h.pxns p P' hP'
    exact ⟨P, hP, h₁.trans h₂⟩
  cache p hp := h.cache p (h'.cache p hp)
  kept p P'' hP'' hp := by
    obtain ⟨P', hP', -⟩ := h'.pxns p P'' hP''
    exact h'.kept p P'' hP'' (h.kept p P' hP' hp)
  nextPxn := h'.nextPxn.trans h.nextPxn

theorem modPxn (s : PxnState) (p : Nat) {g : Pxn → Pxn} (hg : ∀ P : Pxn, P.Pruned (g P)) :
    Prunes s (s.modPxn p g) where
  pxns q P' hP' := by
    obtain ⟨P, hP, rfl⟩ := PxnState.modPxn_some hP'
    refine ⟨P, hP, ?_⟩
    split
    · exact hg P
    · exact .refl P
  cache _ h := h
  kept _ _ _ h := h
  nextPxn := rfl

theorem xtntAt (h : Prunes s s') {a : Nat × Nat} {b : Bptr} (hb : XtntAt s' a b) :
    XtntAt s a b := by
  obtain ⟨hat, hty⟩ := hb
  obtain ⟨P', hP', hi⟩ := bind_eq_some_iff.mp hat
  obtain ⟨P, hP, hpr⟩ := h.pxns a.1 P' hP'
  refine ⟨?_, hty⟩
  simp only [PxnState.bptr?, hP, bind_some]
  exact hpr.bptr a.2 b hi (by simp [hty])

theorem emptyBptr (s : PxnState) (p i : Nat) {g : Bptr → Bptr} (hg : ∀ b, (g b).type = .empty) :
    Prunes s (s.modBptr p i g) := by
  refine .modPxn s p fun P => ⟨rfl, rfl, rfl, rfl, fun j b hb hne => ?_⟩
  rcases modify_bptr hb with hb | ⟨-, c, -, rfl⟩
  · exact hb
  · exact absurd (hg c) hne

theorem unforgeXtnt (s : PxnState) (p i : Nat) (x : Xtnt) :
    Prunes s (Exokernel.unforgeXtnt s p i x) :=
  (emptyBptr s p i fun _ => rfl).trans (.ofEq rfl rfl rfl)

theorem free (s : PxnState) (p : Nat) : Prunes s (freePxn s p) where
  pxns q P' hP' := by
    by_cases hqp : q = p
    · subst hqp; simp [freePxn] at hP'
    · exact ⟨P', by simpa [freePxn, hqp] using hP', .refl P'⟩
  cache q hq := List.mem_of_mem_erase hq
  kept q P' hP' hq := by
    refine (List.mem_erase_of_ne fun hqp => ?_).mpr hq
    subst hqp
    simp [freePxn] at hP'
  nextPxn := rfl

end Prunes

/-! ## 3. The loops -/

section
variable {remove : PxnState → Nat → Xtnt → Option PxnState}

theorem unlinkFromParent_prunes {fuel p i : Nat} {s s' : PxnState}
    (h : unlinkFromParent fuel s p i = some s') : Prunes s s' := by
  unfold unlinkFromParent at h
  obtain ⟨b, -, h⟩ := bind_eq_some_iff.mp h
  split at h
  · cases h
    exact .refl s
  obtain ⟨Q, -, h⟩ := bind_eq_some_iff.mp h
  obtain ⟨r, -, h⟩ := bind_eq_some_iff.mp h
  cases r with
  | none => cases h; exact .refl s
  | some xr => cases h; exact .ofEq rfl rfl rfl

theorem forgedToLoop_prunes (hrem : ∀ s p x s', remove s p x = some s' → Prunes s s')
    (fuel : Nat) : ∀ {s : PxnState} {o : Option Nat} {s' : PxnState},
    forgedToLoop remove fuel s o = some s' → Prunes s s' := by
  intro s o s' h
  fun_induction forgedToLoop remove fuel s o with
  | case1 => cases h; exact .refl _
  | case2 => cases h
  | case3 fuel s xr ih =>
    obtain ⟨b, -, h⟩ := bind_eq_some_iff.mp h
    obtain ⟨s₁, h₁, h⟩ := bind_eq_some_iff.mp h
    exact (hrem _ _ _ _ h₁).trans (ih s₁ h)

theorem removeLoop_prunes (hrem : ∀ s p x s', remove s p x = some s' → Prunes s s')
    {fuel p : Nat} {x : Xtnt} (left : Nat) : ∀ {i : Nat} {s s' : PxnState},
    removeLoop remove fuel p x left i s = some s' → Prunes s s' := by
  induction left with
  | zero =>
    intro i s s' h
    obtain rfl : s = s' := by simpa [removeLoop] using h
    exact .refl s
  | succ left ih =>
    intro i s s' h
    unfold removeLoop at h
    obtain ⟨b, -, h⟩ := bind_eq_some_iff.mp h
    split at h
    · obtain ⟨s₁, h₁, h⟩ := bind_eq_some_iff.mp h
      obtain ⟨s₂, h₂, h⟩ := bind_eq_some_iff.mp h
      have hwalk := forgedToLoop_prunes hrem fuel h₁
      have hempty := Prunes.emptyBptr s₂ p i (g := ({ · with type := .empty })) fun _ => rfl
      exact hwalk.trans ((unlinkFromParent_prunes h₂).trans (hempty.trans (ih h)))
    · exact ih h

end

theorem pxnRemoveXtnt_prunes (fuel : Nat) :
    ∀ s p x s', pxnRemoveXtnt fuel s p x = some s' → Prunes s s' := by
  induction fuel with
  | zero => exact fun s p x s' h => absurd h (by simp [pxnRemoveXtnt])
  | succ fuel ih =>
    intro s p x s' h
    unfold pxnRemoveXtnt at h
    obtain ⟨P, -, h⟩ := bind_eq_some_iff.mp h
    exact removeLoop_prunes ih _ h

/-- **Removal is complete within the pxn**: a block pointer that the loop over
    `i, …, i + left - 1` has passed holds no extent that `x` contains, whatever the
    recursion did in between. -/
theorem removeLoop_gone {rest : Nat} (left : Nat) :
    ∀ {i : Nat} {s s' : PxnState},
      removeLoop (pxnRemoveXtnt fuel) rest p x left i s = some s' →
      ∀ j b, i ≤ j → j < i + left → XtntAt s' (p, j) b → xtntDominates x b.xtnt = false := by
  induction left with
  | zero => intro i s s' _ j b hij hji; omega
  | succ left ih =>
    intro i s s' h j b hij hji hb
    unfold removeLoop at h
    obtain ⟨c, hc, h⟩ := bind_eq_some_iff.mp h
    rcases Nat.lt_or_ge i j with hlt | hge
    · split at h
      · obtain ⟨s₁, -, h⟩ := bind_eq_some_iff.mp h
        obtain ⟨s₂, -, h⟩ := bind_eq_some_iff.mp h
        exact ih h j b hlt (by omega) hb
      · exact ih h j b hlt (by omega) hb
    -- the block pointer of this round: either emptied now, or not contained in `x`
    obtain rfl : i = j := by omega
    split at h
    · obtain ⟨s₁, -, h⟩ := bind_eq_some_iff.mp h
      obtain ⟨s₂, -, h⟩ := bind_eq_some_iff.mp h
      obtain ⟨hat, hty⟩ := (removeLoop_prunes (pxnRemoveXtnt_prunes fuel) left h).xtntAt hb
      rw [PxnState.modBptr_bptr?] at hat
      simp only [and_self, if_true] at hat
      obtain ⟨d, -, rfl⟩ := map_eq_some_iff.mp hat
      exact absurd hty (by simp)
    · rename_i hno
      have hold := (removeLoop_prunes (pxnRemoveXtnt_prunes fuel) left h).xtntAt hb
      obtain rfl : c = b := some.inj (hc.symm.trans hold.1)
      simpa [hold.2] using hno

theorem pxnRemoveXtnt_gone {s' : PxnState}
    (h : pxnRemoveXtnt fuel s p x = some s') (hb : XtntAt s' (p, i) b) :
    xtntDominates x b.xtnt = false := by
  cases fuel with
  | zero => exact absurd h (by simp [pxnRemoveXtnt])
  | succ fuel =>
    have hat := (pxnRemoveXtnt_prunes _ _ _ _ _ h).xtntAt hb
    unfold pxnRemoveXtnt at h
    obtain ⟨P, hP, h⟩ := bind_eq_some_iff.mp h
    have hlt := hat.lt_length hP
    exact removeLoop_gone P.bptrs.length h i b (Nat.zero_le i) (by omega) hb

theorem deallocLoop_prunes {dealloc : PxnState → Nat → Option PxnState}
    (hde : ∀ s p s', dealloc s p = some s' → Prunes s s') (left : Nat) :
    ∀ {i : Nat} {s s' : PxnState}, deallocLoop dealloc fuel p left i s = some s' →
      Prunes s s' := by
  induction left with
  | zero =>
    intro i s s' h
    obtain rfl : s = s' := by simpa [deallocLoop] using h
    exact .refl s
  | succ left ih =>
    intro i s s' h
    unfold deallocLoop at h
    obtain ⟨b, -, h⟩ := bind_eq_some_iff.mp h
    split at h
    · exact ih h
    · obtain ⟨s₁, h₁, h⟩ := bind_eq_some_iff.mp h
      exact (pxnRemoveXtnt_prunes fuel _ _ _ _ h₁).trans (ih h)
    · obtain ⟨s₁, h₁, h⟩ := bind_eq_some_iff.mp h
      exact (hde _ _ _ h₁).trans (ih h)

theorem pxnDealloc_prunes (fuel : Nat) : ∀ s p s', pxnDealloc fuel s p = some s' → Prunes s s' := by
  induction fuel with
  | zero => exact fun s p s' h => absurd h (by simp [pxnDealloc])
  | succ fuel ih =>
    intro s p s' h
    unfold pxnDealloc at h
    obtain ⟨P, -, h⟩ := bind_eq_some_iff.mp h
    have hdec : Prunes s (s.modPxn p ({ · with refcnt := P.refcnt - 1 })) :=
      .modPxn s p fun _ => ⟨rfl, rfl, rfl, rfl, fun _ _ hb _ => hb⟩
    dsimp only at h
    split at h
    · cases h
      exact hdec
    obtain ⟨s₁, h₁, h⟩ := bind_eq_some_iff.mp h
    cases h
    exact hdec.trans ((deallocLoop_prunes ih _ h₁).trans (.free s₁ p))

end Exokernel
