import Exokernel.Proof.Prune

/-!
# Pxns of a run — names nobody else has, extents that keep a rule

Pxns are numbered as they are made, so those made since some point are the ones from a
number `n₀` on. `pxn_alloc` refuses a name that is taken, which makes the name of such a pxn
its own, and looking the name up finds it. What its extents have to satisfy is left open:
`own` may be any rule about an extent, the pxn's name and its access lists, because these
are what no kernel function changes in a pxn that exists. **An extent enters at one place,
`pxn_kernel_add_xtnt`**, so that is the only place to check the rule at.
-/
set_option autoImplicit false

namespace Exokernel

open Function Option List

/-! ## 1. The invariant -/

/-- The entries of both access lists. -/
def Pxn.acls (P : Pxn) : List AclEntry := P.xtntAcl ++ P.pxnAcl

/-- The pxns from number `n₀` on have names nobody else has, and `own` holds of every extent
    in them. It may speak of the pxn's name and its access lists. -/
structure OwnInv (n₀ : Nat) (own : XnName → List AclEntry → Xtnt → Prop) (s : PxnState) :
    Prop where
  next : n₀ ≤ s.nextPxn
  fresh : ∀ p, s.nextPxn ≤ p → s.pxns p = none
  cached : ∀ p P, n₀ ≤ p → s.pxns p = some P → p ∈ s.cache
  unique : ∀ p P q Q, n₀ ≤ p → s.pxns p = some P → q ∈ s.cache → s.pxns q = some Q →
    P.name = Q.name → p = q
  own : ∀ p P i b, n₀ ≤ p → s.pxns p = some P → XtntAt s (p, i) b → own P.name P.acls b.xtnt

/-- Filling a block pointer leaves the pxns' names and lists. -/
theorem modBptr_labels {s : PxnState} {p i q : Nat} {f : Bptr → Bptr} {Q' : Pxn}
    (hQ' : (s.modBptr p i f).pxns q = some Q') :
    ∃ Q, s.pxns q = some Q ∧ Q'.name = Q.name ∧ Q'.acls = Q.acls := by
  obtain ⟨Q, hQ, rfl⟩ := PxnState.modPxn_some hQ'
  refine ⟨Q, hQ, ?_⟩
  split
  · exact ⟨rfl, rfl⟩
  · exact ⟨rfl, rfl⟩

theorem pxnKernelAddXtnt_labels {s : PxnState} {n : XnName} {x : Xtnt} {q : Nat} {Q' : Pxn}
    (hQ' : (pxnKernelAddXtnt s n x).2.pxns q = some Q') :
    ∃ Q, s.pxns q = some Q ∧ Q'.name = Q.name ∧ Q'.acls = Q.acls := by
  rcases pxnKernelAddXtnt_cases s n x with heq | ⟨p, P, i, -, -, -, heq⟩
  · exact ⟨Q', heq ▸ hQ', rfl, rfl⟩
  · rw [heq] at hQ'
    exact modBptr_labels hQ'

namespace OwnInv

variable {n₀ : Nat} {own own' : XnName → List AclEntry → Xtnt → Prop} {s s' : PxnState}

variable {P : Pxn} {n : XnName} {p : Nat}

section

variable (h : OwnInv n₀ own s)
include h

/-- A pxn that is looked up by the name of one of ours is that one. -/
theorem lookup_eq {q : Nat} (hp : n₀ ≤ p)
    (hP : s.pxns p = some P) (hq : lookupPxn s P.name = some q) : p = q := by
  obtain ⟨hmem, Q, hQ, hname⟩ := lookupPxn_some hq
  exact h.unique p P q Q hp hP hmem hQ hname.symm

theorem lookup_self (hp : n₀ ≤ p)
    (hP : s.pxns p = some P) : lookupPxn s P.name = some p := by
  cases hq : lookupPxn s P.name with
  | some q => rw [h.lookup_eq hp hP hq]
  | none =>
    have := List.find?_eq_none.mp hq p (h.cached p P hp hP)
    simp [hP] at this

/-- The extents that are still there may be judged by another rule. -/
theorem mono
    (hown : ∀ p P i b, n₀ ≤ p → s.pxns p = some P → XtntAt s (p, i) b →
      own P.name P.acls b.xtnt → own' P.name P.acls b.xtnt) : OwnInv n₀ own' s :=
  ⟨h.next, h.fresh, h.cached, h.unique,
    fun p P i b hp hP hb => hown p P i b hp hP hb (h.own p P i b hp hP hb)⟩

theorem prunes (hs : Prunes s s') : OwnInv n₀ own s' where
  next := by rw [hs.nextPxn]; exact h.next
  fresh p hp := by
    cases hP' : s'.pxns p with
    | none => rfl
    | some P' =>
      obtain ⟨P, hP, -⟩ := hs.pxns p P' hP'
      rw [h.fresh p (hs.nextPxn ▸ hp)] at hP
      cases hP
  cached p P' hp hP' := by
    obtain ⟨P, hP, -⟩ := hs.pxns p P' hP'
    exact hs.kept p P' hP' (h.cached p P hp hP)
  unique p P' q Q' hp hP' hq hQ' hname := by
    obtain ⟨P, hP, hpr⟩ := hs.pxns p P' hP'
    obtain ⟨Q, hQ, hqr⟩ := hs.pxns q Q' hQ'
    exact h.unique p P q Q hp hP (hs.cache q hq) hQ (by rw [← hpr.name, hname, hqr.name])
  own p P' i b hp hP' hb := by
    obtain ⟨P, hP, hpr⟩ := hs.pxns p P' hP'
    rw [hpr.name, Pxn.acls, hpr.xtntAcl, hpr.pxnAcl]
    exact h.own p P i b hp hP (hs.xtntAt hb)

/-- Pxns rewritten, with their names and lists kept; a new extent is a good one. -/
theorem rewrite (hc : s'.cache = s.cache) (hn : s'.nextPxn = s.nextPxn)
    (hpx : ∀ q Q', s'.pxns q = some Q' →
      ∃ Q, s.pxns q = some Q ∧ Q'.name = Q.name ∧ Q'.acls = Q.acls)
    (hx : ∀ q Q i b, n₀ ≤ q → s.pxns q = some Q → XtntAt s' (q, i) b →
      XtntAt s (q, i) b ∨ own Q.name Q.acls b.xtnt) : OwnInv n₀ own s' where
  next := hn ▸ h.next
  fresh q hq := by
    cases hQ' : s'.pxns q with
    | none => rfl
    | some Q' =>
      obtain ⟨Q, hQ, -⟩ := hpx q Q' hQ'
      rw [h.fresh q (hn ▸ hq)] at hQ
      cases hQ
  cached q Q' hq hQ' := by
    obtain ⟨Q, hQ, -⟩ := hpx q Q' hQ'
    exact hc ▸ h.cached q Q hq hQ
  unique q Q' r R' hq hQ' hr hR' he := by
    obtain ⟨Q, hQ, hQn, -⟩ := hpx q Q' hQ'
    obtain ⟨R, hR, hRn, -⟩ := hpx r R' hR'
    exact h.unique q Q r R hq hQ (hc ▸ hr) hR (by rw [← hQn, he, hRn])
  own q Q' i b hq hQ' hb := by
    obtain ⟨Q, hQ, hQn, hQa⟩ := hpx q Q' hQ'
    rw [hQn, hQa]
    exact (hx q Q i b hq hQ hb).elim (h.own q Q i b hq hQ) id

/-- `pxn_kernel_add_xtnt`: the extent goes to the pxn of that name, or nowhere. -/
theorem kernelAddXtnt (n : XnName) (x : Xtnt)
    (hx : ∀ p P, n₀ ≤ p → lookupPxn s n = some p → s.pxns p = some P → own n P.acls x) :
    OwnInv n₀ own (pxnKernelAddXtnt s n x).2 := by
  rcases pxnKernelAddXtnt_cases s n x with heq | ⟨p, P, i, hl, hP, hf, heq⟩
  · rw [heq]; exact h
  rw [heq]
  obtain ⟨b, hb, -⟩ := findFreeBptr_some hP hf
  refine h.rewrite rfl rfl (fun q Q' hQ' => modBptr_labels hQ') fun q Q j c hq hQ hc => ?_
  rcases (xtntAt_set rfl hb).mp hc with ⟨ha, rfl, -⟩ | ⟨-, hold⟩
  · obtain ⟨rfl, -⟩ := Prod.mk.inj ha
    obtain ⟨-, R, hR, hname⟩ := lookupPxn_some hl
    rw [some.inj (hQ.symm.trans hR), hname]
    exact .inr (hx q R hq hl hR)
  · exact .inl hold

/-- A new pxn, under a name that was free and with nothing in it. -/
theorem plant {P₀ : Pxn}
    (hfree : ∀ q ∈ s.cache, ∀ Q, s.pxns q = some Q → Q.name ≠ P₀.name)
    (hblank : ∀ (i : Nat) (b : Bptr), P₀.bptrs[i]? = some b → b.type ≠ .xtnt)
    (hp : s'.pxns = update s.pxns s.nextPxn (some P₀))
    (hc : s'.cache = s.nextPxn :: s.cache) (hn : s'.nextPxn = s.nextPxn + 1) :
    OwnInv n₀ own s' := by
  have hnew : ∀ {P}, s'.pxns s.nextPxn = some P → P = P₀ := by
    intro P hP
    rw [hp, update_self] at hP
    exact (some.inj hP).symm
  have hold : ∀ {p P}, p ≠ s.nextPxn → s'.pxns p = some P → s.pxns p = some P := by
    intro p P hne hP
    rwa [hp, update_of_ne hne] at hP
  have hmem : ∀ {p}, p ≠ s.nextPxn → (p ∈ s'.cache ↔ p ∈ s.cache) := by
    intro p hne
    rw [hc, mem_cons, or_iff_right hne]
  refine ⟨hn ▸ Nat.le_succ_of_le h.next, fun p hlt => ?_, fun p P hge hP => ?_,
    fun p P q Q hge hP hq hQ he => ?_, fun p P i b hge hP hb => ?_⟩
  · rw [hn] at hlt
    rw [hp, update_of_ne (by omega)]
    exact h.fresh p (by omega)
  · by_cases hpn : p = s.nextPxn
    · rw [hc, hpn]; exact mem_cons_self
    · exact (hmem hpn).mpr (h.cached p P hge (hold hpn hP))
  · by_cases hpn : p = s.nextPxn <;> by_cases hqn : q = s.nextPxn
    · rw [hpn, hqn]
    · subst hpn
      rw [hnew hP] at he
      exact absurd he.symm (hfree q ((hmem hqn).mp hq) Q (hold hqn hQ))
    · subst hqn
      rw [hnew hQ] at he
      exact absurd he (hfree p (h.cached p P hge (hold hpn hP)) P (hold hpn hP))
    · exact h.unique p P q Q hge (hold hpn hP) ((hmem hqn).mp hq) (hold hqn hQ) he
  · obtain ⟨hat, hty⟩ := hb
    simp only [PxnState.bptr?, hP, bind_some] at hat
    by_cases hpn : p = s.nextPxn
    · subst hpn
      rw [hnew hP] at hat
      exact absurd hty (hblank i b hat)
    · have hPs := hold hpn hP
      exact h.own p P i b hge hPs ⟨by simpa [PxnState.bptr?, hPs] using hat, hty⟩

end

/-- A name that is not taken is that of no pxn in the cache. -/
theorem name_ne_of_not_taken (hn : isPxnDiskDev n = true)
    (hfree : nameTaken s n = false) {q : Nat} (hq : q ∈ s.cache) {Q : Pxn}
    (hQ : s.pxns q = some Q) : Q.name ≠ n := by
  intro hname
  simp only [nameTaken, hn, if_true, Option.isSome_eq_false_iff, Option.isNone_iff_eq_none,
    lookupPxn, List.find?_eq_none] at hfree
  have := hfree q hq
  simp [hQ, hname] at this

/-- `pxn_alloc` of a disk's pxn: its name was free, and it holds nothing yet. -/
theorem alloc (h : OwnInv n₀ own s) (hn : isPxnDiskDev n = true)
    (pc xc : BitVec 8) (bs : BitVec 16) (cp cx : Cap) (mem : Option (Nat → AclEntry)) :
    OwnInv n₀ own (pxnAlloc s pc xc bs cp cx n mem).2 := by
  rcases pxnAlloc_cases s pc xc bs cp cx n mem with ⟨e, o, heq⟩ | ⟨junk, o, -, hfree, heq⟩
  · rw [heq]
    exact h.prunes (.ofEq rfl rfl rfl)
  rw [heq]
  refine h.plant (fun q hq Q hQ => name_ne_of_not_taken hn hfree hq hQ) (fun i b hb => ?_)
    rfl rfl rfl
  dsimp only at hb
  rw [List.getElem?_replicate] at hb
  split at hb
  · cases hb
    simp [Bptr.blank]
  · cases hb

/-- The valid entries of a new pxn's lists are the capability it was made with, if there was
    none in memory. -/
theorem alloc_acls (h : OwnInv n₀ own s) (hn : isPxnDiskDev n = true)
    {pc xc : BitVec 8} {bs : BitVec 16} {c : Cap} {mem : Option (Nat → AclEntry)}
    (hjunk : ∀ junk, mem = some junk → ∀ i, (junk i).cap.valid = false)
    (heq : pxnAlloc s pc xc bs c c n mem = (.ok (), s')) (hp : n₀ ≤ p)
    (hP : s'.pxns p = some P) (hname : P.name = n) :
    ∀ e ∈ P.acls, e.cap.valid = true → e.cap = c := by
  rcases pxnAlloc_cases s pc xc bs c c n mem with ⟨e, o, heq'⟩ | ⟨junk, o, hmem, hfree, heq'⟩
  · rw [heq'] at heq
    cases heq
  rw [heq'] at heq
  cases heq
  have hnot : ∀ {l : List Nat} {f : Nat → Nat} {e : AclEntry},
      e ∈ (l.map fun i => junk (f i)).tail → e.cap.valid = true → False := by
    intro l f e he hv
    obtain ⟨i, -, rfl⟩ := mem_map.mp (mem_of_mem_tail he)
    rw [hjunk junk hmem] at hv
    cases hv
  by_cases hpn : p = s.nextPxn
  · subst hpn
    simp only [update_self, some.injEq] at hP
    subst hP
    intro e he hv
    rcases mem_append.mp he with he | he
    · rcases mem_cons.mp he with rfl | he
      · rfl
      · exact (hnot (f := id) he hv).elim
    rcases mem_cons.mp he with rfl | he
    · rfl
    · exact (hnot he hv).elim
  · simp only [update_of_ne hpn] at hP
    exact absurd hname (name_ne_of_not_taken hn hfree (h.cached p P hp hP) hP)

end OwnInv

end Exokernel
