import Exokernel.Lib.Run
import Exokernel.Kern.Boot
import Exokernel.Proof.Prune

/-!
# Read-only extents and the freezing rule

`pxn_add_xtnt` copies an extent into a pxn whose access list the caller may have chosen.
If the caller could only read the source, the destination must not give the caller more:
"if we can't write the extent we have to remove all write-permissions from the pxn and
prevent the capabilities from being changed", says its comment. **The second half is done,
the first is not**: `pxn_has_write_caps` always answers no. The destination is frozen with
the write capability that is already on its list.

Here a run is watched from outside. `History` carries, besides the state, where each extent
was first forged from (`origin`) and which pxns' extent lists have ever granted write access
to somebody holding the capabilities `H` (`written`). The theorem says what the freezing rule
is for: write access to an extent goes back to an origin that granted write access. It holds
for runs in which no call adds a read-only extent to a pxn that the holders can write, and no
call mixes devices, which the code does not check either. Nor does it check that nothing leads to
a pxn it frees: `malloc` gives the block out again, and a pointer that was left behind then grants
what the new pxn in its place grants.
-/
set_option autoImplicit false

namespace Exokernel

open Function Option

/-! ## 1. Histories -/

/-- The extent list of pxn `p` grants write access to a capability in `H`. -/
def WriteAuthorised (H : Cap → Prop) (s : PxnState) (p : Nat) : Prop :=
  ∃ P c, s.pxns p = some P ∧ H c ∧ xtntVerifyAccess P c aclW = .ok ()

/-- A state, where its extents come from, and which pxns were ever written to. -/
structure History where
  now : PxnState
  origin : Nat × Nat → Nat × Nat
  written : Nat → Prop

/-- An extent that was there keeps its origin, a forged one has its source's, and any other
    is its own. -/
def nextOrigin (s s' : PxnState) (origin : Nat × Nat → Nat × Nat) (h : Nat × Nat) : Nat × Nat :=
  if (s.bptr? h.1 h.2).any (·.type = .xtnt) then origin h
  else ((s'.bptr? h.1 h.2).bind (·.forgedFrom)).elim h origin

namespace History

def start (H : Cap → Prop) (s : PxnState) : History := ⟨s, id, WriteAuthorised H s⟩

def Step (H : Cap → Prop) (t : History) (op : PxnOp) (t' : History) : Prop :=
  op.exec t.now = some t'.now ∧ t'.origin = nextOrigin t.now t'.now t.origin ∧
    t'.written = fun p => t.written p ∨ WriteAuthorised H t'.now p

end History

/-- `op` is a system call by somebody whose capabilities are all in `H`. -/
def PxnOp.By (H : Cap → Prop) : PxnOp → Prop
  | .alloc e .. => ∀ j, (e.clist j).1.valid = true → H (e.clist j).1
  | .addCap e .. => ∀ j, (e.clist j).1.valid = true → H (e.clist j).1
  | .addXtnt e .. => ∀ j, (e.clist j).1.valid = true → H (e.clist j).1
  | .addPxn e .. => ∀ j, (e.clist j).1.valid = true → H (e.clist j).1
  | .removeXtnt _ e .. => ∀ j, (e.clist j).1.valid = true → H (e.clist j).1
  | .dealloc _ e .. => ∀ j, (e.clist j).1.valid = true → H (e.clist j).1
  | .kernelAddXtnt .. => False

/-- Nothing leads to a pxn that was freed: no pxn below another, no extent that another was forged
    from, and no record of what was forged from it. -/
def PxnState.NoDangling (s : PxnState) : Prop :=
  ∀ p i b, s.bptr? p i = some b →
    (b.type = .pxn → (s.pxns b.pxn).isSome = true) ∧
    (b.type = .xtnt → (∀ a ∈ b.forgedFrom, (s.pxns a.1).isSome = true) ∧
      ∀ l, Queue.Seg s.links (.inl (p, i)) (s.links.first (p, i)) l →
        ∀ xr ∈ l, (s.pxns (s.xrs xr).1).isSome = true)

/-- The condition. An extent is forged within its device, and into a pxn that grants write
    access to nobody in `H` unless the caller can write the source; a pxn is put below one of
    the same device; a pxn fits the size it is allocated with; what is freed is not pointed at. -/
def PxnOp.KeepsReadOnly (H : Cap → Prop) (s : PxnState) : PxnOp → Prop
  | .alloc _ pc xc bs _ _ _ _ => pxnSize pc xc bs < 2 ^ 16
  | .addXtnt e src dst _ _ _ kx _ => isPxnDiskDev dst = true → ∀ n, src = some n →
      n.dev = dst.dev ∧ ∀ p q S c, lookupPxn s n = some p → s.pxns p = some S →
        lookupPxn s dst = some q → envGetcap e kx = .ok c →
        xtntVerifyAccess S c.1 aclW = .ok () ∨ ¬WriteAuthorised H s q
  | .addPxn _ dst src _ _ => src.dev = dst.dev
  | .dealloc fuel e k n => ∀ r s', sysPxnDealloc fuel s e k n = some (r, s') → s'.NoDangling
  | _ => True

/-! ## 2. What one call does -/

/-- A disk extent `b` in block pointer `h` that is new: it was forged from one of the same
    device, and the source could be written, or the destination is frozen and cannot. -/
def Forged (H : Cap → Prop) (s s' : PxnState) (h : Nat × Nat) (b : Bptr) (P' : Pxn) : Prop :=
  (∀ c, ¬XtntAt s h c) ∧ ∃ a c S, b.forgedFrom = some a ∧ XtntAt s a c ∧
    xtntDominates c.xtnt b.xtnt = true ∧ s.pxns a.1 = some S ∧ S.name.dev = P'.name.dev ∧
    (WriteAuthorised H s a.1 ∨ P'.frozen = true ∧ ¬WriteAuthorised H s' h.1)

/-- The effect of a call. Names stay, frozen lists stay, and what block pointers hold is as
    it was, apart from extents that are forged and pxns of the same device. -/
structure Effect (H : Cap → Prop) (s s' : PxnState) : Prop where
  pxns : ∀ p P', s'.pxns p = some P' →
    (∃ P, s.pxns p = some P ∧ P'.name = P.name ∧
      (P.frozen = true → P'.frozen = true ∧ P'.xtntAcl = P.xtntAcl)) ∨
    s.nextPxn ≤ p ∧ ∀ i b, s'.bptr? p i = some b → b.type = .empty
  xtnts : ∀ h b P', XtntAt s' h b → s'.pxns h.1 = some P' → isPxnDiskDev P'.name = true →
    XtntAt s h b ∨ Forged H s s' h b P'
  subs : ∀ p i b P', s'.bptr? p i = some b → b.type = .pxn → s'.pxns p = some P' →
    s.bptr? p i = some b ∨ ∃ Q, s.pxns b.pxn = some Q ∧ Q.name.dev = P'.name.dev
  next : s.nextPxn ≤ s'.nextPxn
  fresh : (∀ p, s.nextPxn ≤ p → s.pxns p = none) → ∀ p, s'.nextPxn ≤ p → s'.pxns p = none

namespace Effect

variable {H : Cap → Prop} {s s' : PxnState}

/-- A call that makes no pxn, from what it does to each one. -/
theorem ofPxns (hn : s'.nextPxn = s.nextPxn)
    (h : ∀ p P', s'.pxns p = some P' → ∃ P, s.pxns p = some P ∧ P'.name = P.name ∧
      (P.frozen = true → P'.frozen = true ∧ P'.xtntAcl = P.xtntAcl) ∧
      ∀ (i : Nat) (b : Bptr), P'.bptrs[i]? = some b → b.type ≠ .empty →
        P.bptrs[i]? = some b ∨
        b.type = .xtnt ∧ (isPxnDiskDev P'.name = true → Forged H s s' (p, i) b P') ∨
        b.type = .pxn ∧ ∃ Q, s.pxns b.pxn = some Q ∧ Q.name.dev = P'.name.dev) :
    Effect H s s' where
  pxns p P' hP' := by
    obtain ⟨P, hP, hname, hfr, -⟩ := h p P' hP'
    exact .inl ⟨P, hP, hname, hfr⟩
  xtnts a b P' hb hP' hdisk := by
    obtain ⟨P, hP, -, -, hslot⟩ := h a.1 P' hP'
    have hb' : P'.bptrs[a.2]? = some b := by simpa [PxnState.bptr?, hP'] using hb.1
    rcases hslot a.2 b hb' (by simp [hb.2]) with hold | ⟨-, hnew⟩ | ⟨hpxn, -⟩
    · exact .inl ⟨by simpa [PxnState.bptr?, hP] using hold, hb.2⟩
    · exact .inr (hnew hdisk)
    · rw [hb.2] at hpxn; exact absurd hpxn (by simp)
  subs p i b P' hb hbt hP' := by
    obtain ⟨P, hP, -, -, hslot⟩ := h p P' hP'
    have hb' : P'.bptrs[i]? = some b := by simpa [PxnState.bptr?, hP'] using hb
    rcases hslot i b hb' (by simp [hbt]) with hold | ⟨hx, -⟩ | ⟨-, hQ⟩
    · exact .inl (by simpa [PxnState.bptr?, hP] using hold)
    · rw [hbt] at hx; exact absurd hx (by simp)
    · exact .inr hQ
  next := hn.ge
  fresh hf p hp := by
    cases hP' : s'.pxns p with
    | none => rfl
    | some P' =>
      obtain ⟨P, hP, -⟩ := h p P' hP'
      rw [hf p (hn ▸ hp)] at hP
      exact absurd hP (by simp)

theorem ofPrunes (h : Prunes s s') : Effect H s s' := by
  refine .ofPxns h.nextPxn fun p P' hP' => ?_
  obtain ⟨P, hP, hpr⟩ := h.pxns p P' hP'
  exact ⟨P, hP, hpr.name, fun hf => ⟨hpr.frozen.trans hf, hpr.xtntAcl⟩,
    fun i b hb hne => .inl (hpr.bptr i b hb hne)⟩

theorem refl (s : PxnState) : Effect H s s := .ofPrunes (.refl s)

theorem ofModPxn {p : Nat} {g : Pxn → Pxn} (hn : s'.nextPxn = s.nextPxn)
    (hs' : s'.pxns = (s.modPxn p g).pxns)
    (h : ∀ P, s.pxns p = some P → (g P).name = P.name ∧
      (P.frozen = true → (g P).frozen = true ∧ (g P).xtntAcl = P.xtntAcl) ∧
      ∀ (i : Nat) (b : Bptr), (g P).bptrs[i]? = some b → b.type ≠ .empty →
        P.bptrs[i]? = some b ∨
        b.type = .xtnt ∧ (isPxnDiskDev (g P).name = true → Forged H s s' (p, i) b (g P)) ∨
        b.type = .pxn ∧ ∃ Q, s.pxns b.pxn = some Q ∧ Q.name.dev = (g P).name.dev) :
    Effect H s s' := by
  refine .ofPxns hn fun q P' hP' => ?_
  rw [hs'] at hP'
  obtain ⟨P, hP, rfl⟩ := PxnState.modPxn_some hP'
  refine ⟨P, hP, ?_⟩
  split
  · rename_i hqp; subst hqp; exact h P hP
  · exact ⟨rfl, fun hf => ⟨hf, rfl⟩, fun i b hb _ => .inl hb⟩

theorem alloc (pc xc : BitVec 8) (bs : BitVec 16) (cp cx : Cap) (n : XnName)
    (mem : Option (Nat → AclEntry)) : Effect H s (pxnAlloc s pc xc bs cp cx n mem).2 := by
  -- only the new pxn has block pointers that were not there, and they are empty
  have hxtnt : ∀ {a b}, XtntAt (pxnAlloc s pc xc bs cp cx n mem).2 a b → XtntAt s a b :=
    xtntAt_pxnAlloc
  have hbptr : ∀ {p i b}, (pxnAlloc s pc xc bs cp cx n mem).2.bptr? p i = some b →
    s.bptr? p i = some b ∨ b.type = .empty := pxnAlloc_bptr
  rcases pxnAlloc_cases s pc xc bs cp cx n mem with ⟨e, o, heq⟩ | ⟨junk, o, -, -, heq⟩
  · rw [heq]
    exact .ofPrunes (.ofEq rfl rfl rfl)
  rw [heq] at hxtnt hbptr ⊢
  refine ⟨fun p P' hP' => ?_, fun _ _ _ hb _ _ => .inl (hxtnt hb),
    fun _ _ _ _ hb hbt _ => .inl ((hbptr hb).resolve_right (by simp [hbt])),
    Nat.le_succ _, fun hf p hp => ?_⟩
  · by_cases hp : p = s.nextPxn
    · subst hp
      refine .inr ⟨le_refl _, fun i b hb => ?_⟩
      simp only [PxnState.bptr?, update_self, bind_some, List.getElem?_replicate] at hb
      split at hb
      · rw [← some.inj hb]; rfl
      · exact absurd hb (by simp)
    · exact .inl ⟨P', by simpa [hp] using hP', rfl, fun hf => ⟨hf, rfl⟩⟩
  · dsimp only at hp ⊢
    rw [update_of_ne (by omega)]
    exact hf p (by omega)

theorem addCap (e : Env) (n : XnName) (kn kp : BitVec 32) (flag : Bool) :
    Effect H s (sysPxnAddCap s e n kn kp flag).2 := by
  rcases sysPxnAddCap_cases s e n kn kp flag with heq | ⟨p, P, g, hP, hfr, heq, hg⟩
  · rw [heq]; exact .refl s
  rw [heq]
  refine .ofModPxn rfl rfl fun Q hQ => ⟨(hg Q).1, fun hf => ?_, fun i b hb _ => .inl ?_⟩
  · rw [some.inj (hQ.symm.trans hP), hfr] at hf
    exact absurd hf (by simp)
  · rwa [(hg Q).2] at hb

theorem kernelAddXtnt {n : XnName} (x : Xtnt) (hn : isPxnDiskDev n = false) :
    Effect H s (pxnKernelAddXtnt s n x).2 := by
  rcases pxnKernelAddXtnt_cases s n x with heq | ⟨p, P, i, hp, -, -, heq⟩
  · rw [heq]; exact .refl s
  rw [heq]
  refine .ofModPxn (p := p) rfl rfl fun P hP => ⟨rfl, fun hf => ⟨hf, rfl⟩, fun i b hb _ => ?_⟩
  rcases modify_bptr hb with hb | ⟨-, c, -, rfl⟩
  · exact .inl hb
  refine .inr (.inl ⟨rfl, fun hdisk => ?_⟩)
  obtain ⟨-, Q, hQ, hname⟩ := lookupPxn_some hp
  rw [some.inj (hP.symm.trans hQ), hname, hn] at hdisk
  exact absurd hdisk (by simp)

theorem forgeXtnt_pxns (src j dst i : Nat) (x : Xtnt) (freeze : Bool) :
    (forgeXtnt s src j dst i x freeze).pxns =
      (s.modPxn dst fun P =>
        { P with
          bptrs := P.bptrs.modify i
            ({ · with type := .xtnt, xtnt := x, forgedFrom := some (src, j) })
          frozen := freeze || P.frozen }).pxns := by
  funext q
  cases freeze with
  | false => simp [forgeXtnt, PxnState.modBptr]
  | true =>
    by_cases hq : q = dst
    · subst hq
      cases hP : s.pxns q <;> simp [forgeXtnt, PxnState.modBptr, PxnState.modPxn, hP]
    · simp [forgeXtnt, PxnState.modBptr, PxnState.modPxn, hq]

theorem forge {src j dst i : Nat} {x : Xtnt} {S D : Pxn} {c : Cap} (hS : s.pxns src = some S)
    (hD : s.pxns dst = some D) (hj : findDominatingXtnt S x = some j)
    (hi : findFreeBptr D = some i) (hdev : S.name.dev = D.name.dev) (hc : H c)
    (hw : xtntVerifyAccess S c aclW = .ok () ∨ ¬WriteAuthorised H s dst) :
    Effect H s (forgeXtnt s src j dst i x (xtntReadOnly S c)) := by
  have hpx := forgeXtnt_pxns (s := s) src j dst i x (xtntReadOnly S c)
  refine .ofModPxn ?_ hpx fun P hP => ⟨rfl, fun hf => ⟨?_, rfl⟩, fun i' b hb _ => ?_⟩
  · unfold forgeXtnt; dsimp only; split <;> rfl
  · simp [hf]
  obtain rfl : D = P := some.inj (hD.symm.trans hP)
  rcases modify_bptr hb with hb | ⟨rfl, b₀, hb₀, rfl⟩
  · exact .inl hb
  refine .inr (.inl ⟨rfl, fun _ => ?_⟩)
  obtain ⟨b₁, hb₁, hbt₁⟩ := findFreeBptr_some hD hi
  obtain ⟨a, ha, hdom⟩ := findDominatingXtnt_some hS hj
  refine ⟨not_xtntAt_of_empty hb₁ hbt₁, (src, j), a, S, rfl, ha, hdom, hS, hdev, ?_⟩
  cases hro : xtntReadOnly S c with
  | false =>
    -- the caller can write the source
    refine .inl ⟨S, c, hS, hc, ?_⟩
    unfold xtntReadOnly at hro
    split at hro
    · exact absurd hro (by simp)
    · rename_i hok; exact hok
  | true =>
    refine .inr ⟨by simp, ?_⟩
    have hnw : ¬WriteAuthorised H s dst := by
      refine hw.resolve_left fun hok => ?_
      simp [xtntReadOnly, hok] at hro
    rintro ⟨Q, c', hQ, hc', hok⟩
    rw [← hro, hpx, PxnState.modPxn_pxns, if_pos rfl, hD] at hQ
    cases hQ
    exact hnw ⟨D, c', hD, hc', hok⟩

/-- A pxn below one of the same device. -/
theorem addPxn {src dst i : Nat} {S D : Pxn} (hS : s.pxns src = some S) (hD : s.pxns dst = some D)
    (hdev : S.name.dev = D.name.dev) :
    Effect H s ((s.modPxn src fun P => { P with refcnt := P.refcnt + 1 }).modBptr dst i
      ({ · with type := .pxn, pxn := src })) := by
  refine .ofPxns rfl fun q P' hP' => ?_
  obtain ⟨P₁, hP₁, hP'⟩ := PxnState.modPxn_some hP'
  obtain ⟨P, hP, hname, hfr, hacl, hbp⟩ : ∃ P, s.pxns q = some P ∧ P₁.name = P.name ∧
      P₁.frozen = P.frozen ∧ P₁.xtntAcl = P.xtntAcl ∧ P₁.bptrs = P.bptrs := by
    obtain ⟨P, hP, rfl⟩ := PxnState.modPxn_some hP₁
    refine ⟨P, hP, ?_⟩
    split
    · exact ⟨rfl, rfl, rfl, rfl⟩
    · exact ⟨rfl, rfl, rfl, rfl⟩
  refine ⟨P, hP, ?_⟩
  by_cases hq : q = dst
  · subst hq
    simp only [if_true] at hP'
    subst hP'
    refine ⟨hname, fun hf => ⟨hfr.trans hf, hacl⟩, fun i' b hb _ => ?_⟩
    rcases modify_bptr hb with hb | ⟨-, c, -, rfl⟩
    · exact .inl (hbp ▸ hb)
    · refine .inr (.inr ⟨rfl, S, hS, ?_⟩)
      rw [hdev, some.inj (hD.symm.trans hP), hname]
  · simp only [hq, if_false] at hP'
    subst hP'
    exact ⟨hname, fun hf => ⟨hfr.trans hf, hacl⟩, fun i' b hb _ => .inl (hbp ▸ hb)⟩

/-- **Every call that meets the condition has this effect.** -/
theorem exec {op : PxnOp} (hby : op.By H) (hok : op.KeepsReadOnly H s)
    (hs : op.exec s = some s') : Effect H s s' := by
  cases op with
  | alloc e pc xc bs kp kx n mem =>
    cases hs
    unfold sysPxnAlloc
    split
    · exact .refl s
    split
    · exact .refl s
    · exact .alloc _ _ _ _ _ _ _
  | addCap e n kn kp flag =>
    cases hs
    exact .addCap e n kn kp flag
  | addXtnt e srcXn dstXn x kd ks kx mem =>
    obtain ⟨r, hr, rfl⟩ := map_eq_some_iff.mp hs
    rcases sysPxnAddXtnt_cases hr with heq | ⟨src, dst, cd, cs, cx, hdst, hadd, hsrc⟩
    · rw [heq]; exact .refl s
    rcases pxnAddXtnt_cases hadd with heq | ⟨D, -, hpseudo, heq⟩ |
      ⟨p, S, D, j, i, hp, hS, hD, hdisk, hj, hi, heq⟩
    · rw [heq]; exact .refl s
    · rw [heq]; exact .kernelAddXtnt x hpseudo
    rcases heq with heq | heq
    · obtain ⟨n, c, rfl, hn, hc, rfl⟩ := hsrc p hp
      obtain ⟨-, S', hS', hSn⟩ := lookupPxn_some hn
      obtain rfl : S = S' := some.inj (hS.symm.trans hS')
      obtain ⟨-, D', hD', hDn⟩ := lookupPxn_some hdst
      obtain rfl : D = D' := some.inj (hD.symm.trans hD')
      obtain ⟨hdev, hw⟩ := hok (hDn ▸ hdisk) n rfl
      obtain ⟨hv, k, hk⟩ := envGetcap_ok hc
      rw [heq]
      refine .forge hS hD hj hi (by rw [hSn, hDn, hdev]) ?_ (hw p dst S c hn hS hdst hc)
      rw [← hk] at hv ⊢
      exact hby k hv
    · rw [heq]; exact .ofPrunes (.unforgeXtnt s dst i x)
  | addPxn e dstXn srcXn kd ks =>
    obtain ⟨r, hr, rfl⟩ := map_eq_some_iff.mp hs
    rcases sysPxnAddPxn_cases hr with heq | ⟨src, dst, S, D, i, hsrc, hdst, hS, hD, hi, heq⟩
    · rw [heq]; exact .refl s
    obtain ⟨-, S', hS', hSn⟩ := lookupPxn_some hsrc
    obtain rfl : S = S' := some.inj (hS.symm.trans hS')
    obtain ⟨-, D', hD', hDn⟩ := lookupPxn_some hdst
    obtain rfl : D = D' := some.inj (hD.symm.trans hD')
    rw [heq]
    refine .addPxn hS hD ?_
    rw [hSn, hDn]
    exact hok
  | removeXtnt fuel e n x k =>
    obtain ⟨r, hr, rfl⟩ := map_eq_some_iff.mp hs
    rcases sysPxnRemoveXtnt_cases hr with heq | ⟨p, -, hrem⟩
    · rw [heq]; exact .refl s
    · exact .ofPrunes (pxnRemoveXtnt_prunes fuel _ _ _ _ hrem)
  | dealloc fuel e k n =>
    obtain ⟨r, hr, rfl⟩ := map_eq_some_iff.mp hs
    rcases sysPxnDealloc_cases hr with heq | ⟨p, -, hde⟩
    · rw [heq]; exact .refl s
    · exact .ofPrunes (pxnDealloc_prunes fuel _ _ _ hde)
  | kernelAddXtnt n x => exact hby.elim

end Effect

/-! ## 3. Along a run -/

/-- An extent covers another one, or is the same. -/
def Covers (x y : Xtnt) : Prop := x = y ∨ xtntDominates x y = true

variable {H : Cap → Prop} {s s₀ : PxnState} {t : History} {x : Xtnt}

theorem xtntDominates_trans {y z : Xtnt} (hxy : xtntDominates x y = true)
    (hyz : xtntDominates y z = true) : xtntDominates x z = true := by
  simp only [xtntDominates, Bool.and_eq_true, decide_eq_true_eq, BitVec.le_def,
    BitVec.lt_def] at hxy hyz ⊢
  omega

theorem Covers.dominates {y z : Xtnt} (hxy : Covers x y) (hyz : xtntDominates y z = true) :
    xtntDominates x z = true := by
  rcases hxy with rfl | hxy
  · exact hyz
  · exact xtntDominates_trans hxy hyz

/-- The extent that `h` holds was first forged from one that `s₀` had on the same device. -/
def FromOrigin (s₀ : PxnState) (t : History) (h : Nat × Nat) (b : Bptr) (P : Pxn) : Prop :=
  ∃ b₀ P₀, XtntAt s₀ (t.origin h) b₀ ∧ s₀.pxns (t.origin h).1 = some P₀ ∧
    P₀.name.dev = P.name.dev ∧ Covers b₀.xtnt b.xtnt

/-- What every history that starts in `s₀` satisfies: an extent is still in the pxn of its
    origin, or that pxn was once writable, or the pxn it is in is frozen and is not. -/
structure Traced (H : Cap → Prop) (s₀ : PxnState) (t : History) : Prop where
  fresh : ∀ p, t.now.nextPxn ≤ p → t.now.pxns p = none
  auth : ∀ p, WriteAuthorised H t.now p → t.written p
  subs : ∀ p i b P, t.now.bptr? p i = some b → b.type = .pxn → t.now.pxns p = some P →
    b.pxn < t.now.nextPxn ∧ ∀ Q, t.now.pxns b.pxn = some Q → Q.name.dev = P.name.dev
  origin : ∀ h b P, XtntAt t.now h b → t.now.pxns h.1 = some P → isPxnDiskDev P.name = true →
    FromOrigin s₀ t h b P
  rule : ∀ h b P, XtntAt t.now h b → t.now.pxns h.1 = some P → isPxnDiskDev P.name = true →
    (t.origin h).1 = h.1 ∨ t.written (t.origin h).1 ∨
      P.frozen = true ∧ ¬WriteAuthorised H t.now h.1

/-- A state to start from: no number is given out twice, and a pxn below another one is of
    the same device. -/
structure PxnState.Sound (s : PxnState) : Prop where
  fresh : ∀ p, s.nextPxn ≤ p → s.pxns p = none
  subs : ∀ p i b P, s.bptr? p i = some b → b.type = .pxn → s.pxns p = some P →
    b.pxn < s.nextPxn ∧ ∀ Q, s.pxns b.pxn = some Q → Q.name.dev = P.name.dev

theorem Traced.start (h : s₀.Sound) :
    Traced H s₀ (.start H s₀) where
  fresh := h.fresh
  auth _ hp := hp
  subs := h.subs
  origin _ b P hb hP _ := ⟨b, P, hb, hP, rfl, .inl rfl⟩
  rule _ _ _ _ _ _ := .inl rfl

theorem nextOrigin_old {s' : PxnState} {o : Nat × Nat → Nat × Nat} {h : Nat × Nat} {b : Bptr}
    (hb : XtntAt s h b) : nextOrigin s s' o h = o h := by
  simp [nextOrigin, hb.1, hb.2]

theorem nextOrigin_forged {s' : PxnState} {o : Nat × Nat → Nat × Nat} {h a : Nat × Nat} {b : Bptr}
    (hold : ∀ c, ¬XtntAt s h c) (hb : XtntAt s' h b) (ha : b.forgedFrom = some a) :
    nextOrigin s s' o h = o a := by
  have hno : (s.bptr? h.1 h.2).any (·.type = .xtnt) = false := by
    cases hc : s.bptr? h.1 h.2 with
    | none => rfl
    | some c => simpa using fun ht => hold c ⟨hc, ht⟩
  simp [nextOrigin, hno, hb.1, ha]

theorem Traced.step {t' : History} (h : Traced H s₀ t)
    (heff : Effect H t.now t'.now) (horg : t'.origin = nextOrigin t.now t'.now t.origin)
    (hwr : t'.written = fun p => t.written p ∨ WriteAuthorised H t'.now p) :
    Traced H s₀ t' := by
  have hmono : ∀ p, t.written p → t'.written p := fun p hp => by rw [hwr]; exact .inl hp
  -- a pxn with something in it was there before
  have hold : ∀ p i b P', t'.now.bptr? p i = some b → b.type ≠ .empty → t'.now.pxns p = some P' →
      ∃ P, t.now.pxns p = some P ∧ P'.name = P.name ∧
        (P.frozen = true → P'.frozen = true ∧ P'.xtntAcl = P.xtntAcl) := by
    intro p i b P' hb hne hP'
    rcases heff.pxns p P' hP' with hP | ⟨-, hempty⟩
    · exact hP
    · exact absurd (hempty i b hb) hne
  refine ⟨heff.fresh h.fresh, fun p hp => by rw [hwr]; exact .inr hp, ?_, ?_, ?_⟩
  · intro p i b P' hb hbt hP'
    obtain ⟨P, hP, hname, -⟩ := hold p i b P' hb (by simp [hbt]) hP'
    have hsub : b.pxn < t.now.nextPxn ∧ ∀ Q, t.now.pxns b.pxn = some Q →
        Q.name.dev = P'.name.dev := by
      rcases heff.subs p i b P' hb hbt hP' with hb' | ⟨Q, hQ, hdev⟩
      · rw [hname]; exact h.subs p i b P hb' hbt hP
      refine ⟨Nat.lt_of_not_le fun hle => ?_, fun Q' hQ' => ?_⟩
      · rw [h.fresh _ hle] at hQ; exact absurd hQ (by simp)
      · rw [← some.inj (hQ.symm.trans hQ')]; exact hdev
    refine ⟨lt_of_lt_of_le hsub.1 heff.next, fun Q' hQ' => ?_⟩
    rcases heff.pxns b.pxn Q' hQ' with ⟨Q, hQ, hn, -⟩ | ⟨hle, -⟩
    · rw [hn]; exact hsub.2 Q hQ
    · exact absurd hsub.1 (Nat.not_lt.mpr hle)
  · intro a b P' hb hP' hdisk
    obtain ⟨P, hP, hname, -⟩ := hold a.1 a.2 b P' hb.1 (by simp [hb.2]) hP'
    rcases heff.xtnts a b P' hb hP' hdisk with hb' | ⟨hnone, e, c, S, he, hc, hdom, hS, hdev, -⟩
    · obtain ⟨b₀, P₀, hb₀, hP₀, hd₀, hcov⟩ := h.origin a b P hb' hP (hname ▸ hdisk)
      unfold FromOrigin
      rw [horg, nextOrigin_old hb']
      exact ⟨b₀, P₀, hb₀, hP₀, hd₀.trans (by rw [hname]), hcov⟩
    · have hSdisk : isPxnDiskDev S.name = true := by simpa [isPxnDiskDev, hdev] using hdisk
      obtain ⟨b₀, P₀, hb₀, hP₀, hd₀, hcov⟩ := h.origin e c S hc hS hSdisk
      unfold FromOrigin
      rw [horg, nextOrigin_forged hnone hb he]
      exact ⟨b₀, P₀, hb₀, hP₀, hd₀.trans hdev, .inr (hcov.dominates hdom)⟩
  · intro a b P' hb hP' hdisk
    obtain ⟨P, hP, hname, hfr⟩ := hold a.1 a.2 b P' hb.1 (by simp [hb.2]) hP'
    rcases heff.xtnts a b P' hb hP' hdisk with hb' | ⟨hnone, e, c, S, he, hc, -, hS, hdev, hw⟩
    · rw [horg, nextOrigin_old hb']
      rcases h.rule a b P hb' hP (hname ▸ hdisk) with heq | hw | ⟨hf, hnw⟩
      · exact .inl heq
      · exact .inr (.inl (hmono _ hw))
      refine .inr (.inr ⟨(hfr hf).1, ?_⟩)
      rintro ⟨Q, c, hQ, hc, hok⟩
      obtain rfl : P' = Q := some.inj (hP'.symm.trans hQ)
      refine hnw ⟨P, c, hP, hc, ?_⟩
      unfold xtntVerifyAccess at hok ⊢
      rwa [(hfr hf).2] at hok
    · rw [horg, nextOrigin_forged hnone hb he]
      have hSdisk : isPxnDiskDev S.name = true := by simpa [isPxnDiskDev, hdev] using hdisk
      rcases hw with hw | ⟨hf, hnw⟩
      · -- the source could be written, so its origin could be at some time
        refine .inr (.inl (hmono _ ?_))
        rcases h.rule e c S hc hS hSdisk with heq | hw' | ⟨-, hnw⟩
        · rw [heq]; exact h.auth _ hw
        · exact hw'
        · exact absurd hw hnw
      · exact .inr (.inr ⟨hf, hnw⟩)

/-! ## 4. Authorisation -/

/-- `pxn_authorizes_xtnt` says yes because of an extent in the pxn or in one below it, whose
    list grants the access. -/
theorem authorizesSub_ok {authorizes : Nat → Option (Except Errno Unit)} {bs : List Bptr}
    (h : authorizesSub authorizes bs = some (.ok ())) :
    ∃ b ∈ bs, b.type = .pxn ∧ authorizes b.pxn = some (.ok ()) := by
  induction bs with
  | nil => exact absurd h (by simp [authorizesSub])
  | cons b bs ih =>
    unfold authorizesSub at h
    split at h
    · obtain ⟨c, hc, hct⟩ := ih h
      exact ⟨c, List.mem_cons_of_mem _ hc, hct⟩
    rename_i hbt
    obtain ⟨r, hr, h⟩ := bind_eq_some_iff.mp h
    cases r with
    | ok _ => exact ⟨b, by simp, by simpa using hbt, hr⟩
    | error e =>
      dsimp only at h
      split at h
      · exact absurd h (by simp)
      · obtain ⟨c, hc, hct⟩ := ih h
        exact ⟨c, List.mem_cons_of_mem _ hc, hct⟩

theorem Traced.authorizes (h : Traced H s₀ t)
    {c : Cap} {access : BitVec 3} (fuel : Nat) : ∀ {p : Nat} {P : Pxn},
    t.now.pxns p = some P → pxnAuthorizesXtnt fuel t.now p c x access = some (.ok ()) →
    ∃ q i b Q, XtntAt t.now (q, i) b ∧ t.now.pxns q = some Q ∧ Q.name.dev = P.name.dev ∧
      xtntDominates b.xtnt x = true ∧ xtntVerifyAccess Q c access = .ok () := by
  induction fuel with
  | zero => intro p P _ hauth; exact absurd hauth (by simp [pxnAuthorizesXtnt])
  | succ fuel ih =>
    intro p P hP hauth
    unfold pxnAuthorizesXtnt at hauth
    rw [hP, bind_some] at hauth
    split at hauth
    · rename_i b hb
      have hbx := List.find?_some hb
      simp only [Bool.and_eq_true, decide_eq_true_eq] at hbx
      obtain ⟨i, hi, hbi⟩ := List.mem_iff_getElem.mp (List.mem_of_find?_eq_some hb)
      refine ⟨p, i, b, P, ⟨?_, hbx.1⟩, hP, rfl, hbx.2, by simpa using hauth⟩
      simp [PxnState.bptr?, hP, ← hbi]
    obtain ⟨b, hb, hbt, hsub⟩ := authorizesSub_ok hauth
    obtain ⟨i, hi, hbi⟩ := List.mem_iff_getElem.mp hb
    have hbp : t.now.bptr? p i = some b := by simp [PxnState.bptr?, hP, ← hbi]
    cases hQ : t.now.pxns b.pxn with
    | none =>
      cases fuel with
      | zero => exact absurd hsub (by simp [pxnAuthorizesXtnt])
      | succ fuel => exact absurd hsub (by simp [pxnAuthorizesXtnt, hQ])
    | some Q =>
      obtain ⟨q, j, a, R, ha, hR, hdev, hdom, hok⟩ := ih hQ hsub
      exact ⟨q, j, a, R, ha, hR, hdev.trans ((h.subs p i b P hbp hbt hP).2 Q hQ), hdom, hok⟩

/-- What the freezing rule is for. If a capability in `H` opens blocks `x` of a disk for
    writing, through any pxn, then the blocks lie in an extent whose origin covers them, is of
    the same disk, and was in a pxn that write-authorised one of the capabilities. -/
def WriteHasOrigin (H : Cap → Prop) (s₀ : PxnState) (t : History) : Prop :=
  ∀ fuel p P c x, t.now.pxns p = some P → isPxnDiskDev P.name = true → H c →
    pxnAuthorizesXtnt fuel t.now p c x aclW = some (.ok ()) →
    ∃ h b b₀ P₀, XtntAt t.now h b ∧ xtntDominates b.xtnt x = true ∧
      XtntAt s₀ (t.origin h) b₀ ∧ xtntDominates b₀.xtnt x = true ∧
      s₀.pxns (t.origin h).1 = some P₀ ∧ P₀.name.dev = P.name.dev ∧ t.written (t.origin h).1

theorem Traced.writeHasOrigin
    (h : Traced H s₀ t) : WriteHasOrigin H s₀ t := by
  intro fuel p P c x hP hdisk hc hauth
  obtain ⟨q, i, b, Q, hb, hQ, hdev, hdom, hok⟩ := h.authorizes fuel hP hauth
  have hQdisk : isPxnDiskDev Q.name = true := by simpa [isPxnDiskDev, hdev] using hdisk
  obtain ⟨b₀, P₀, hb₀, hP₀, hd₀, hcov⟩ := h.origin (q, i) b Q hb hQ hQdisk
  have hauthQ : WriteAuthorised H t.now q := ⟨Q, c, hQ, hc, hok⟩
  refine ⟨(q, i), b, b₀, P₀, hb, hdom, hb₀, hcov.dominates hdom, hP₀, hd₀.trans hdev, ?_⟩
  rcases h.rule (q, i) b Q hb hQ hQdisk with heq | hw | ⟨-, hnw⟩
  · rw [heq]; exact h.auth q hauthQ
  · exact hw
  · exact absurd hauthQ hnw

/-- **Write access has an origin**, in every state of every run by holders of `H` whose calls
    all meet the condition. -/
theorem write_has_origin_of_keepsReadOnly {H : Cap → Prop} {s₀ : PxnState} {t : History}
    (h₀ : s₀.Sound)
    (hrun : Run.Reaches (History.Step H) (fun t op => op.By H ∧ op.KeepsReadOnly H t.now)
      (.start H s₀) t) :
    WriteHasOrigin H s₀ t := by
  refine Traced.writeHasOrigin (hrun.invariant (Traced.start h₀) ?_)
  rintro t op t' htr ⟨hby, hok⟩ ⟨hexec, horg, hwr⟩
  exact htr.step (.exec hby hok hexec) horg hwr

/-! ### The rule and a way around it -/

/-- A capability with every permission, and the same name to read with. -/
def fullCap : ClistCap := ⟨⟨7, true, false, 1, fun _ => 1⟩, fun _ => rfl⟩
def readCap : ClistCap := ⟨{ fullCap.1 with perm := 0 }, fun _ => rfl⟩

def holder : Env :=
  { bootEnv fullCap with clist := update (bootEnv fullCap).clist 1 readCap }

def HeldByHolder (c : Cap) : Prop := c = fullCap.1 ∨ c = readCap.1

theorem holder_caps (j : Fin maxCapno) (hv : (holder.clist j).1.valid = true) :
    HeldByHolder (holder.clist j).1 := by
  revert j
  unfold HeldByHolder
  decide

/-- A pxn for the first 100 blocks of disk 0. The holder controls the pxn and can read its
    extents. -/
def readOnlyDisk : PxnState :=
  { PxnState.empty with
    pxns := update (fun _ => none) 0 (some
      ⟨⟨0, 0⟩, [.ofCap readCap.1], [.ofCap fullCap.1], [⟨.xtnt, ⟨0, 100⟩, none, 0⟩], 1, false⟩)
    cache := [0]
    nextPxn := 1 }

theorem readOnlyDisk_sound : readOnlyDisk.Sound where
  fresh p hp := by
    have : p ≠ 0 := by rintro rfl; exact absurd hp (by decide)
    simp [readOnlyDisk, this]
  subs p i b P hb hbt hP := by
    by_cases hp : p = 0
    · subst hp
      cases i with
      | zero =>
        obtain rfl : _ = b := some.inj hb
        exact absurd hbt (by simp)
      | succ i => exact absurd hb (by simp [readOnlyDisk, PxnState.bptr?])
    · simp [readOnlyDisk, hp] at hP

/-- Make a pxn on disk 0 whose extents are guarded by capability number `kXtnt`. -/
def makeCopy (kXtnt : BitVec 32) : PxnOp :=
  .alloc holder 1 1 1 0 kXtnt ⟨0, 1⟩ (some fun _ => .ofCap Cap.null)

/-- Forge the disk's extent into it. -/
def fillCopy : PxnOp := .addXtnt holder (some ⟨0, 0⟩) ⟨0, 1⟩ ⟨0, 100⟩ 0 0 0 true

/-- What is known after a call. -/
def History.after (H : Cap → Prop) (t : History) (s : PxnState) : History :=
  ⟨s, nextOrigin t.now s t.origin, fun p => t.written p ∨ WriteAuthorised H s p⟩

theorem History.step_after {op : PxnOp}
    (h : op.exec t.now = some s) : History.Step H t op (t.after H s) := ⟨h, rfl, rfl⟩

/-- The states after the one call and after both. -/
def copyMade (kXtnt : BitVec 32) : PxnState := (makeCopy kXtnt).exec readOnlyDisk |>.getD .empty
def copyFilled (kXtnt : BitVec 32) : PxnState := fillCopy.exec (copyMade kXtnt) |>.getD .empty

/-- Guarded by the capability that can only read, the copy is within the condition. -/
theorem write_has_origin_read_copy :
    ∃ t, t.now = copyFilled 1 ∧ t.now.bptr? 1 0 = some ⟨.xtnt, ⟨0, 100⟩, some (0, 0), 0⟩ ∧
      WriteHasOrigin HeldByHolder readOnlyDisk t := by
  have h₁ : PxnOp.exec readOnlyDisk (makeCopy 1) = some (copyMade 1) := rfl
  have h₂ : PxnOp.exec (copyMade 1) fillCopy = some (copyFilled 1) := rfl
  have hsize : (makeCopy 1).KeepsReadOnly HeldByHolder readOnlyDisk := by
    simp [makeCopy, PxnOp.KeepsReadOnly, pxnSize]
  have hread : fillCopy.KeepsReadOnly HeldByHolder (copyMade 1) := by
    refine fun _ n hn => ⟨by cases hn; rfl, fun p q S c _ _ hq _ => .inr ?_⟩
    obtain rfl : 1 = q := some.inj hq
    rintro ⟨P, c', hP, hc', hok⟩
    obtain rfl : _ = P := some.inj hP
    rcases hc' with rfl | rfl
    · cases hok
    · cases hok
  exact ⟨_, rfl, rfl, write_has_origin_of_keepsReadOnly readOnlyDisk_sound
    ((Run.Reaches.refl.call (i := makeCopy 1) ⟨holder_caps, hsize⟩ (History.step_after h₁)).call
      (i := fillCopy) ⟨holder_caps, hread⟩ (History.step_after h₂))⟩

/-- **The rule is bypassed** if the copy is guarded by the full capability: the copy is frozen,
    and the holder writes blocks that no list ever let the holder write. -/
theorem write_has_origin_fails :
    ∃ t, t.now = copyFilled 0 ∧
      Run.Reaches (History.Step HeldByHolder) (fun _ op => op.By HeldByHolder)
        (.start HeldByHolder readOnlyDisk) t ∧
      ¬WriteHasOrigin HeldByHolder readOnlyDisk t := by
  have h₁ : PxnOp.exec readOnlyDisk (makeCopy 0) = some (copyMade 0) := rfl
  have h₂ : PxnOp.exec (copyMade 0) fillCopy = some (copyFilled 0) := rfl
  refine ⟨_, rfl, (Run.Reaches.refl.call (i := makeCopy 0) holder_caps
    (History.step_after h₁)).call (i := fillCopy) holder_caps (History.step_after h₂), ?_⟩
  intro horigin
  obtain ⟨h, b, b₀, P₀, -, -, -, -, hP₀, -, hw⟩ :=
    horigin 1 1 _ fullCap.1 ⟨0, 100⟩ rfl rfl (.inl rfl) rfl
  -- the origin is in pxn 0, whose list never granted write access
  have hpxn : ∀ p, readOnlyDisk.pxns p = some P₀ → p = 0 := by
    intro p hp
    by_contra hne
    simp [readOnlyDisk, hne] at hp
  rw [hpxn _ hP₀] at hw
  have hread : ∀ s : PxnState, s.pxns 0 = readOnlyDisk.pxns 0 → ¬WriteAuthorised HeldByHolder s 0 := by
    rintro s hs ⟨P, c, hP, hc, hok⟩
    obtain rfl : _ = P := some.inj (hs.symm.trans hP)
    rcases hc with rfl | rfl
    · cases hok
    · cases hok
  rcases hw with (hw | hw) | hw
  · exact hread _ rfl hw
  · exact hread _ rfl hw
  · exact hread _ rfl hw

end Exokernel
