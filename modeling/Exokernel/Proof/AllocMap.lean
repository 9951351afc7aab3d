import Exokernel.Cffs.Setptr
import Exokernel.Lib.Run

/-!
# The allocation map and the block pointers of CFFS

What the server keeps: a block that a pointer names is marked `INUSE`, and two pointers never
name one block. The second half carries the first: a pointer that is set back frees its block,
and that is right only as long as nothing else names it.

**Only `INUSE` is ever tested.** A block that belongs to nobody's micropartition (`NOTCFFS`) is
therefore handed out like a free one. `CFFS_SETPTR_EXTERNALFREE` frees whatever block it is told,
and the two requests that rewrite whole blocks of the map look at no pointer and stop half-way
when a block of the map is not in the cache. `MapReq.Sound` is what a request has to keep to.
-/
set_option autoImplicit false

namespace Exokernel
namespace Cffs

open Nat

/-! ## 1. A partition -/

/-- Where a file system has its map and its pointers: a block of the map for each 4096 blocks,
    and the pointer fields, which lie apart from each other and outside the map. -/
structure Volume where
  map : Nat → Blk
  slots : Set BcRef
  map_inj : ∀ j k, j < 2 ^ 20 → k < 2 ^ 20 → map j = map k → j = k
  slot_apart : ∀ r ∈ slots, ∀ r' ∈ slots, r ≠ r' → Store.Apart r.blk r.off 4 r'.blk r'.off 4
  slot_map : ∀ r ∈ slots, ∀ k, r.blk ≠ map k

/-- The byte of the map that stands for a block. -/
def mapByte (v : Volume) (s : Store Blk) (b : BitVec 32) : BitVec 8 :=
  s (v.map (b.toNat / blockSize)) (b.toNat % blockSize)

/-- **The invariant.** -/
structure MapOk (v : Volume) (s : Store Blk) : Prop where
  inuse : ∀ r ∈ v.slots, ptr s r ≠ 0 → mapByte v s (ptr s r) = allocmapInuse
  unique : ∀ r ∈ v.slots, ∀ r' ∈ v.slots, ptr s r = ptr s r' → ptr s r ≠ 0 → r = r'

/-- Neither the map nor a pointer has changed. -/
def MapSame (v : Volume) (s t : Store Blk) : Prop :=
  (∀ b, mapByte v t b = mapByte v s b) ∧ ∀ r ∈ v.slots, ptr t r = ptr s r

variable {v : Volume} {s t : Store Blk}

theorem MapSame.refl (v : Volume) (s : Store Blk) : MapSame v s s := ⟨fun _ => rfl, fun _ _ => rfl⟩

/-! ## 2. Stores into the map and into a slot -/

theorem map_index_lt (b : BitVec 32) : b.toNat / blockSize < 2 ^ 20 := by
  have hb := b.isLt
  change b.toNat / 4096 < 2 ^ 20
  omega

theorem eq_of_place {b c : BitVec 32} (hdiv : b.toNat / blockSize = c.toNat / blockSize)
    (hmod : b.toNat % blockSize = c.toNat % blockSize) : b = c := by
  apply BitVec.eq_of_toNat_eq
  rw [← div_add_mod b.toNat blockSize, ← div_add_mod c.toNat blockSize, hdiv, hmod]

variable {bs : BitVec 32 → Prop} {r : BcRef}

theorem ptr_blit_map (hr : r ∈ v.slots) (k a n : Nat) (src : Nat → BitVec 8) :
    ptr (s.blit (v.map k) a n src) r = ptr s r := by
  apply Store.Same.ld32
  apply Store.blit_apart
  intro hk
  exact absurd hk.symm (v.slot_map r hr k)

/-- A store into a slot: the slot itself, the others and the map. -/
theorem ptr_st32_self (r : BcRef) (x : BitVec 32) : ptr (s.st32 r.blk r.off x) r = x :=
  Store.ld32_st32 x

theorem ptr_st32_ne {r' : BcRef} (hr : r ∈ v.slots) (hr' : r' ∈ v.slots) (hne : r' ≠ r)
    (x : BitVec 32) : ptr (s.st32 r.blk r.off x) r' = ptr s r' := by
  apply Store.Same.ld32
  apply Store.blit_apart
  exact v.slot_apart r hr r' hr' hne.symm

theorem mapByte_st32 (hr : r ∈ v.slots) (x : BitVec 32) (b : BitVec 32) :
    mapByte v (s.st32 r.blk r.off x) b = mapByte v s b := by
  unfold mapByte Store.st32
  apply Store.blit_outside
  intro hk
  exact absurd hk.symm (v.slot_map r hr _)

/-- The reference that a request passes is to the block of the map that covers a block. -/
def Covering (v : Volume) (arg : SetptrArg) (b : BitVec 32) : Prop :=
  arg.allocmap = ⟨v.map (b.toNat / blockSize), 0⟩

section
variable {arg : SetptrArg} {b : BitVec 32} (hcov : Covering v arg b)
include hcov

theorem setMapAt_eq (c : BitVec 32) (x : BitVec 8) :
    setMapAt s arg c x = s.blit (v.map (b.toNat / blockSize)) (c.toNat % blockSize) 1 fun _ => x := by
  unfold setMapAt Store.st8
  rw [hcov]
  simp

section
variable {c : BitVec 32} (hc : c.toNat / blockSize = b.toNat / blockSize)
include hc

theorem mapAt_eq :
    mapAt s arg c = mapByte v s c := by
  unfold mapAt mapByte
  rw [hcov, hc]
  simp

theorem mapByte_setMapAt_self (x : BitVec 8) : mapByte v (setMapAt s arg c x) c = x := by
  rw [setMapAt_eq hcov]
  unfold mapByte
  rw [hc, Store.blit_inside (le_refl _) (lt_succ_self _)]

theorem mapByte_setMapAt_ne {d : BitVec 32} (hne : d ≠ c) (x : BitVec 8) :
    mapByte v (setMapAt s arg c x) d = mapByte v s d := by
  rw [setMapAt_eq hcov]
  unfold mapByte
  apply Store.blit_outside
  intro hk
  have hdiv := v.map_inj _ _ (map_index_lt d) (map_index_lt b) hk
  have hmod : d.toNat % blockSize ≠ c.toNat % blockSize := by
    intro hmod
    exact hne (eq_of_place (hdiv.trans hc.symm) hmod)
  omega

theorem mapByte_setMapAt_inuse {d : BitVec 32} (hd : mapByte v s d = allocmapInuse) :
    mapByte v (setMapAt s arg c allocmapInuse) d = allocmapInuse := by
  by_cases hdc : d = c
  · rw [hdc]
    exact mapByte_setMapAt_self hcov hc _
  · rw [mapByte_setMapAt_ne hcov hc hdc]
    exact hd

end

theorem ptr_setMapAt {r : BcRef} (hr : r ∈ v.slots) (c : BitVec 32) (x : BitVec 8) :
    ptr (setMapAt s arg c x) r = ptr s r := by
  rw [setMapAt_eq hcov]
  exact ptr_blit_map hr _ _ _ _

end

/-! ## 3. Two ways to keep the invariant -/

/-- The pointers stay, and a mark is lost only on the blocks `bs`. -/
structure Keeps (v : Volume) (bs : BitVec 32 → Prop) (s t : Store Blk) : Prop where
  ptr : ∀ r ∈ v.slots, ptr t r = ptr s r
  mark : ∀ b, ¬ bs b → mapByte v s b = allocmapInuse → mapByte v t b = allocmapInuse

theorem Keeps.refl (v : Volume) (bs : BitVec 32 → Prop) (s : Store Blk) : Keeps v bs s s :=
  ⟨fun _ _ => rfl, fun _ _ h => h⟩

theorem Keeps.trans {u : Store Blk} (h : Keeps v bs s t)
    (h' : Keeps v bs t u) : Keeps v bs s u where
  ptr r hr := (h'.ptr r hr).trans (h.ptr r hr)
  mark b hb hin := h'.mark b hb (h.mark b hb hin)

/-- No block that a pointer names is among the blocks `bs`. -/
def NamesNone (v : Volume) (s : Store Blk) (bs : BitVec 32 → Prop) : Prop :=
  ∀ r ∈ v.slots, ptr s r ≠ 0 → ¬ bs (ptr s r)

theorem MapOk.remark (h : MapOk v s) (hnone : NamesNone v s bs)
    (hk : Keeps v bs s t) : MapOk v t where
  inuse r hr hne := by
    rw [hk.ptr r hr] at hne ⊢
    exact hk.mark _ (hnone r hr hne) (h.inuse r hr hne)
  unique r hr r' hr' heq hne := by
    rw [hk.ptr r hr, hk.ptr r' hr'] at heq
    rw [hk.ptr r hr] at hne
    exact h.unique r hr r' hr' heq hne

/-! ## 4. Requests -/

/-- What a client can ask for. -/
inductive MapReq where
  | setptr (action : SetptrAction) (arg : SetptrArg)
  | initAllocMap (arg : InitAllocMapArg) (k : MicropartRets)
  | allocMicropart (arg : AllocMicropartArg) (ret : Int)

/-- A request, made while certain blocks are in the cache. -/
def MapReq.exec (s : Store Blk) (resident : Blk → Bool) :
    MapReq → Option (Except CffsErr Unit × Store Blk)
  | .setptr action arg => some (servFsupdateSetptr resident s action arg)
  | .initAllocMap arg k => servFsupdateInitAllocMap resident s arg k
  | .allocMicropart arg ret => some (servFsupdateAllocMicropart resident s arg ret)

/-- The blocks of the map that a request passes are the ones that cover the blocks it is about,
    and the pointer is one of the file system's. -/
def MapReq.Covers (v : Volume) (s : Store Blk) : MapReq → Prop
  | .setptr action arg =>
    (action.isExternal = false → arg.ptrloc ∈ v.slots) ∧
    match action with
    | .deallocate => Covering v arg (ptr s arg.ptrloc)
    | .nullify => True
    | _ => Covering v arg arg.val
  | .initAllocMap arg _ => ∀ i, i < arg.count.toInt.toNat → arg.allocmap i = ⟨v.map i, 0⟩
  | .allocMicropart arg _ => ∀ i, i < arg.count.toInt.toNat →
    ∃ k, k < 2 ^ 20 ∧ k / freemapPagesPerMicropart = arg.micropart.toNat ∧
      arg.allocmap i = ⟨v.map k, 0⟩

/-- **What a request has to keep to**, in the state it is made in. -/
def MapReq.Sound (v : Volume) (s : Store Blk) (resident : Blk → Bool) : MapReq → Prop
  | .setptr action arg =>
    match action with
    | .allocate | .replace => mapByte v s arg.val ≠ allocmapNotcffs
    | .externalFree => NamesNone v s (· = arg.val)
    | _ => True
  | .initAllocMap arg _ =>
    (∀ i, i < arg.count.toInt.toNat → resident (arg.allocmap i).blk = true) ∧
    NamesNone v s fun b => b.toNat / blockSize < arg.count.toInt.toNat ∧ 100 ≤ b.toNat ∧
      arg.deadcnt.toInt.toNat ≤ b.toNat
  | .allocMicropart arg _ =>
    (∀ i, i < arg.count.toInt.toNat → resident (arg.allocmap i).blk = true) ∧
    NamesNone v s fun b => ∃ i, i < arg.count.toInt.toNat ∧
      (arg.allocmap i).blk = v.map (b.toNat / blockSize)

/-- What the server promises about one request. -/
structure MapStep (v : Volume) (s : Store Blk) (r : Except CffsErr Unit) (t : Store Blk) :
    Prop where
  notcffs : ∀ p ∈ v.slots, ptr t p ≠ ptr s p → ptr t p ≠ 0 →
    mapByte v s (ptr t p) ≠ allocmapNotcffs
  freed : ∀ b, mapByte v s b = allocmapInuse → mapByte v t b ≠ allocmapInuse →
    ∀ p ∈ v.slots, ptr t p ≠ 0 → ptr t p ≠ b
  refused : ∀ e, r = .error e → MapSame v s t

/-- Whatever is taken off `INUSE` is named by nobody as soon as the invariant holds again. -/
theorem MapOk.freed (h : MapOk v t) (b : BitVec 32) (hb : mapByte v t b ≠ allocmapInuse) :
    ∀ p ∈ v.slots, ptr t p ≠ 0 → ptr t p ≠ b := by
  intro p hp hne heq
  apply hb
  rw [← heq]
  exact h.inuse p hp hne

/-- A request that changes marks only, and none that a pointer rests on. -/
theorem MapOk.remarked (h : MapOk v s) (hnone : NamesNone v s bs) (hk : Keeps v bs s t) :
    MapOk v t ∧ MapStep v s (.ok ()) t := by
  have ht := h.remark hnone hk
  exact ⟨ht, fun p hp hne => absurd (hk.ptr p hp) hne, fun b _ hb => ht.freed b hb,
    fun _ he => by cases he⟩

section
variable (h : MapOk v s) {val : BitVec 32} (hself : ptr t r = val)
  (hptr : ∀ r' ∈ v.slots, r' ≠ r → ptr t r' = ptr s r')
  (hnew : val ≠ 0 → mapByte v t val = allocmapInuse ∧
    ∀ r' ∈ v.slots, r' ≠ r → ptr s r' ≠ val)
  (hmap : ∀ r' ∈ v.slots, r' ≠ r → ptr s r' ≠ 0 → mapByte v t (ptr s r') = allocmapInuse)
include h hself hptr hnew hmap

/-- One pointer changes: what it names now is marked and named by no other, and the marks of
    what the others name stay. -/
theorem MapOk.retarget : MapOk v t where
  inuse r' hr' hne := by
    by_cases hrr : r' = r
    · subst hrr
      rw [hself] at hne ⊢
      exact (hnew hne).1
    · rw [hptr r' hr' hrr] at hne ⊢
      exact hmap r' hr' hrr hne
  unique r₁ h₁ r₂ h₂ heq hne := by
    by_cases h1 : r₁ = r
    · by_cases h2 : r₂ = r
      · rw [h1, h2]
      rw [h1, hself, hptr r₂ h₂ h2] at heq
      rw [h1, hself] at hne
      exact absurd heq.symm ((hnew hne).2 r₂ h₂ h2)
    · by_cases h2 : r₂ = r
      · rw [h2, hself, hptr r₁ h₁ h1] at heq
        rw [hptr r₁ h₁ h1, heq] at hne
        exact absurd heq ((hnew hne).2 r₁ h₁ h1)
      rw [hptr r₁ h₁ h1, hptr r₂ h₂ h2] at heq
      rw [hptr r₁ h₁ h1] at hne
      exact h.unique r₁ h₁ r₂ h₂ heq hne

/-- A request that changes one pointer, to a block that is the file system's. -/
theorem MapOk.retargeted
    (hcffs : val ≠ 0 → mapByte v s val ≠ allocmapNotcffs) :
    MapOk v t ∧ MapStep v s (.ok ()) t := by
  have ht := h.retarget hself hptr hnew hmap
  refine ⟨ht, fun p hp hch hz => ?_, fun b _ hb => ht.freed b hb, fun _ he => by cases he⟩
  by_cases hpr : p = r
  · rw [hpr, hself] at hz ⊢
    exact hcffs hz
  · exact absurd (hptr p hp hpr) hch

end

theorem MapStep.ofSame (h : MapOk v s) (r : Except CffsErr Unit) : MapStep v s r s where
  notcffs _ _ hne := absurd rfl hne
  freed b _ hb := h.freed b hb
  refused _ _ := .refl v s

/-! ## 5. One pointer -/

section
variable {resident : Blk → Bool} {action : SetptrAction} {arg : SetptrArg}
  {r : Except CffsErr Unit}

/-- What the tests leave: the value that is stored is the one of the request. -/
theorem setptrCheck_ok {val : BitVec 32} (h : setptrCheck s action arg = .ok val)
    (hne : action ≠ .nullify) :
    arg.val = val ∧ (action = .deallocate → val = 0) ∧ (action = .replace →
      ptr s arg.ptrloc ≠ 0 ∧
        (ptr s arg.ptrloc).toNat / blockSize = arg.val.toNat / blockSize) := by
  cases action <;> grind [setptrCheck]

/-- Mark a block and set a pointer: what there is to see of it. -/
theorem ptr_markSet (hr : arg.ptrloc ∈ v.slots) {b : BitVec 32} (hcov : Covering v arg b)
    (c val : BitVec 32) (x : BitVec 8) {p : BcRef} (hp : p ∈ v.slots) (hne : p ≠ arg.ptrloc) :
    ptr ((setMapAt s arg c x).st32 arg.ptrloc.blk arg.ptrloc.off val) p = ptr s p := by
  rw [ptr_st32_ne hr hp hne, ptr_setMapAt hcov hp]

/-- What a pointer names is not the block of another pointer. -/
theorem MapOk.other_ne (h : MapOk v s) {p p' : BcRef} (hp : p ∈ v.slots) (hp' : p' ∈ v.slots)
    (hne : p ≠ p') (hz : ptr s p ≠ 0) : ptr s p ≠ ptr s p' :=
  fun heq => hne (h.unique p hp p' hp' heq hz)

theorem MapOk.setptr (h : MapOk v s) (hcov : (MapReq.setptr action arg).Covers v s)
    (hsound : (MapReq.setptr action arg).Sound v s resident)
    (hcall : servFsupdateSetptr resident s action arg = (r, t)) :
    MapOk v t ∧ MapStep v s r t := by
  obtain ⟨hslot, hcov⟩ := hcov
  have herr : ∀ e, MapOk v s ∧ MapStep v s (.error e) s := fun e => ⟨h, .ofSame h _⟩
  suffices hpost : ∀ x, servFsupdateSetptr resident s action arg = x →
      MapOk v x.2 ∧ MapStep v s x.1 x.2 from hpost _ hcall
  rintro _ rfl
  unfold servFsupdateSetptr
  dsimp only
  split
  · exact herr _
  cases action with
  | unknown => exact herr _
  | externalAlloc =>
    dsimp only
    split
    · exact herr _
    -- one more mark
    have hnone : NamesNone v s fun _ => False := fun _ _ _ hf => hf
    exact h.remarked hnone ⟨fun p hp => ptr_setMapAt hcov hp _ _,
      fun b _ hb => mapByte_setMapAt_inuse hcov rfl hb⟩
  | externalFree =>
    dsimp only
    split
    · exact herr _
    -- the block is nobody's
    have hnone : NamesNone v s (· = arg.val) := hsound
    refine h.remarked hnone ⟨fun p hp => ptr_setMapAt hcov hp _ _, fun b hbv hb => ?_⟩
    rw [mapByte_setMapAt_ne hcov rfl hbv]
    exact hb
  | nullify =>
    -- a pointer is cleared; its block stays marked
    have hr := hslot rfl
    simp only [setptrCheck, setptrTake, setptrGive, reduceCtorEq, or_self, if_false]
    refine h.retargeted (ptr_st32_self _ _) (fun p hp hne => ptr_st32_ne hr hp hne _)
      (absurd rfl) (fun p hp _ hz => ?_) (absurd rfl)
    rw [mapByte_st32 hr]
    exact h.inuse p hp hz
  | allocate =>
    have hr := hslot rfl
    dsimp only
    cases hc : setptrCheck s .allocate arg with
    | error e => exact herr e
    | ok val =>
      obtain ⟨rfl, -⟩ := setptrCheck_ok hc nofun
      by_cases hin : mapAt s arg arg.val = allocmapInuse
      · simp only [setptrTake, hin, true_or, if_true]
        exact herr _
      simp only [setptrTake, setptrGive, hin, reduceCtorEq, true_or, or_self, if_true, if_false]
      have hnot : mapByte v s arg.val ≠ allocmapInuse := mapAt_eq hcov rfl ▸ hin
      refine h.retargeted (ptr_st32_self _ _) (fun p hp hne => ptr_markSet hr hcov _ _ _ hp hne)
        (fun hz => ⟨?_, fun p hp _ heq => h.freed _ hnot p hp (heq ▸ hz) heq⟩)
        (fun p hp _ hz => ?_) fun _ => hsound
      · rw [mapByte_st32 hr]
        exact mapByte_setMapAt_self hcov rfl _
      · rw [mapByte_st32 hr]
        exact mapByte_setMapAt_inuse hcov rfl (h.inuse p hp hz)
  | deallocate =>
    have hr := hslot rfl
    dsimp only
    cases hc : setptrCheck s .deallocate arg with
    | error e => exact herr e
    | ok val =>
      obtain rfl := (setptrCheck_ok hc nofun).2.1 rfl
      by_cases hin : mapAt s arg (ptr s arg.ptrloc) ≠ allocmapInuse
      · simp only [setptrTake, setptrGive, if_pos hin, reduceCtorEq, true_or, or_self, if_true,
          if_false]
        exact herr _
      simp only [setptrTake, setptrGive, hin, reduceCtorEq, true_or, or_self, if_true, if_false]
      refine h.retargeted (ptr_st32_self _ _) (fun p hp hne => ptr_markSet hr hcov _ _ _ hp hne)
        (absurd rfl) (fun p hp hne hz => ?_) (absurd rfl)
      rw [mapByte_st32 hr, mapByte_setMapAt_ne hcov rfl (h.other_ne hp hr hne hz)]
      exact h.inuse p hp hz
  | replace =>
    have hr := hslot rfl
    dsimp only
    cases hc : setptrCheck s .replace arg with
    | error e => exact herr e
    | ok val =>
      obtain ⟨rfl, -, hrep⟩ := setptrCheck_ok hc nofun
      obtain ⟨hold, hdiv⟩ := hrep rfl
      by_cases hin : mapAt s arg arg.val = allocmapInuse
      · simp only [setptrTake, hin, or_true, if_true]
        exact herr _
      have hnot : mapByte v s arg.val ≠ allocmapInuse := mapAt_eq hcov rfl ▸ hin
      have hne : ptr s arg.ptrloc ≠ arg.val := h.freed _ hnot _ hr hold
      -- the old block is marked, so the second piece does not refuse
      have hmark : mapAt (setMapAt s arg arg.val allocmapInuse) arg (ptr s arg.ptrloc) =
          allocmapInuse := by
        rw [mapAt_eq hcov hdiv]
        exact mapByte_setMapAt_inuse hcov rfl (h.inuse _ hr hold)
      simp only [setptrTake, setptrGive, hin, or_true, if_true, if_false, ptr_setMapAt hcov hr,
        hmark, ne_eq, not_true_eq_false]
      refine h.retargeted (ptr_st32_self _ _) (fun p hp hpr => ?_)
        (fun hz => ⟨?_, fun p hp _ heq => h.freed _ hnot p hp (heq ▸ hz) heq⟩)
        (fun p hp hpr hz => ?_) fun _ => hsound
      · rw [ptr_markSet hr hcov _ _ _ hp hpr, ptr_setMapAt hcov hp]
      · rw [mapByte_st32 hr, mapByte_setMapAt_ne hcov hdiv hne.symm]
        exact mapByte_setMapAt_self hcov rfl _
      · rw [mapByte_st32 hr, mapByte_setMapAt_ne hcov hdiv (h.other_ne hp hr hpr hz)]
        exact mapByte_setMapAt_inuse hcov rfl (h.inuse p hp hz)

end

/-! ## 6. Whole blocks of the map -/

theorem Keeps.blit {k a n : Nat} {src : Nat → BitVec 8} (hk : k < 2 ^ 20)
    (hb : ∀ b, ¬ bs b → b.toNat / blockSize = k → a ≤ b.toNat % blockSize →
      b.toNat % blockSize < a + n → src (b.toNat % blockSize - a) = allocmapInuse) :
    Keeps v bs s (s.blit (v.map k) a n src) where
  ptr p hp := ptr_blit_map hp _ _ _ _
  mark b hbs hin := by
    unfold mapByte at hin ⊢
    by_cases hplace : b.toNat / blockSize = k ∧ a ≤ b.toNat % blockSize ∧
        b.toNat % blockSize < a + n
    · obtain ⟨hdiv, ha, hn⟩ := hplace
      rw [hdiv, Store.blit_inside ha hn]
      exact hb b hbs hdiv ha hn
    rw [Store.blit_outside]
    · exact hin
    intro hmap
    have hdiv := v.map_inj _ _ (map_index_lt b) hk hmap
    by_contra hout
    apply hplace
    refine ⟨hdiv, ?_, ?_⟩
    · omega
    · omega

section
variable {resident : Blk → Bool} {arg : InitAllocMapArg}

/-- The blocks that `initAllocMap` may take off `INUSE`. -/
def initFrees (arg : InitAllocMapArg) (b : BitVec 32) : Prop :=
  b.toNat / blockSize < arg.count.toInt.toNat ∧ 100 ≤ b.toNat ∧ arg.deadcnt.toInt.toNat ≤ b.toNat

theorem initAllocMapBlock_other {k : Blk} {a i d : Nat} {r : BcRef} (hk : k ≠ r.blk) :
    initAllocMapBlock s r i d k a = s k a := by
  unfold initAllocMapBlock
  split
  · split
    · simp [Store.blit, hk]
    · simp [Store.blit, hk]
  · simp [Store.blit, hk]

/-- What is marked again at the beginning of the first block. -/
theorem initAllocMapBlock_head {a d : Nat} {r : BcRef} (hr : r.off.val = 0)
    (ha : a < 100 ∨ a < d) : initAllocMapBlock s r 0 d r.blk a = allocmapInuse := by
  unfold initAllocMapBlock
  rw [if_pos (by decide), if_pos rfl]
  simp only [hr]
  by_cases hd : a < d
  · rw [Store.blit_inside (zero_le _) (by omega)]
  · rw [Store.blit_outside (by omega), Store.blit_inside (zero_le _) (by omega)]

theorem Keeps.initAllocMapBlock {i : Nat} (h20 : i < 2 ^ 20) (hi : i < arg.count.toInt.toNat)
    (hdead : arg.deadcnt.toInt.toNat ≤ blockSize) :
    Keeps v (initFrees arg) s
      (initAllocMapBlock s ⟨v.map i, 0⟩ i arg.deadcnt.toInt.toNat) where
  ptr p hp := by
    apply Store.Same.ld32
    intro a _ _
    exact initAllocMapBlock_other (v.slot_map p hp i)
  mark b hb hin := by
    unfold mapByte at hin ⊢
    by_cases hdiv : b.toNat / blockSize = i
    · -- the block is wiped, and what is not given up is at the very beginning of the map
      have hlow : b.toNat < 100 ∨ b.toNat < arg.deadcnt.toInt.toNat := by
        by_contra hout
        apply hb
        exact ⟨by omega, by omega, by omega⟩
      have hlt : b.toNat < blockSize := by
        change b.toNat < 4096
        change arg.deadcnt.toInt.toNat ≤ 4096 at hdead
        omega
      rw [div_eq_of_lt hlt] at hdiv ⊢
      rw [mod_eq_of_lt hlt, ← hdiv]
      exact initAllocMapBlock_head rfl hlow
    · rw [initAllocMapBlock_other]
      · exact hin
      · intro hmap
        exact hdiv (v.map_inj _ _ (map_index_lt b) h20 hmap)

theorem initAllocMapLoop_keeps (hcov : ∀ i, i < arg.count.toInt.toNat → arg.allocmap i = ⟨v.map i, 0⟩)
    (hres : ∀ i, i < arg.count.toInt.toNat → resident (arg.allocmap i).blk = true)
    (hcount : arg.count.toInt.toNat ≤ 256) (hdead : arg.deadcnt.toInt.toNat ≤ blockSize)
    (n : Nat) : ∀ i s, i + n ≤ arg.count.toInt.toNat →
      ∃ t, initAllocMapLoop resident arg n i s = (.ok (), t) ∧ Keeps v (initFrees arg) s t := by
  induction n with
  | zero =>
    intro i s _
    exact ⟨s, rfl, .refl v _ s⟩
  | succ n ih =>
    intro i s hn
    have hi : i < arg.count.toInt.toNat := by omega
    obtain ⟨t, hloop, hk⟩ := ih (i + 1) (initAllocMapBlock s ⟨v.map i, 0⟩ i _) (by omega)
    refine ⟨t, ?_, (Keeps.initAllocMapBlock (by omega) hi hdead).trans hk⟩
    rw [initAllocMapLoop, translateAddress_resident (hres i hi), hcov i hi]
    exact hloop

theorem MapOk.initAllocMap (h : MapOk v s) {k : MicropartRets} {r : Except CffsErr Unit}
    (hcov : (MapReq.initAllocMap arg k).Covers v s)
    (hsound : (MapReq.initAllocMap arg k).Sound v s resident)
    (hcall : servFsupdateInitAllocMap resident s arg k = some (r, t)) :
    MapOk v t ∧ MapStep v s r t := by
  unfold servFsupdateInitAllocMap at hcall
  split at hcall
  · cases hcall
    exact ⟨h, .ofSame h _⟩
  rename_i hcount
  split at hcall
  · cases hcall
    exact ⟨h, .ofSame h _⟩
  split at hcall
  · cases hcall
  rename_i hdead
  have hc : arg.count.toInt.toNat ≤ 256 := by
    change ¬ (256 : Int) ≤ _ at hcount
    omega
  have hd : arg.deadcnt.toInt.toNat ≤ blockSize := by omega
  obtain ⟨u, hloop, hk⟩ := initAllocMapLoop_keeps hcov hsound.1 hc hd
    arg.count.toInt.toNat 0 s (by omega)
  rw [hloop] at hcall
  cases hcall
  exact h.remarked hsound.2 hk

end

section
variable {resident : Blk → Bool} {arg : AllocMicropartArg}

/-- The blocks that `allocMicropart` takes off `INUSE`. -/
def micropartFrees (v : Volume) (arg : AllocMicropartArg) (b : BitVec 32) : Prop :=
  ∃ i, i < arg.count.toInt.toNat ∧ (arg.allocmap i).blk = v.map (b.toNat / blockSize)

theorem allocMicropartLoop_keeps
    (hcov : ∀ i, i < arg.count.toInt.toNat → ∃ k, k < 2 ^ 20 ∧ arg.allocmap i = ⟨v.map k, 0⟩)
    (hres : ∀ i, i < arg.count.toInt.toNat → resident (arg.allocmap i).blk = true)
    (n : Nat) : ∀ i s, i + n ≤ arg.count.toInt.toNat →
      ∃ t, allocMicropartLoop resident arg n i s = (.ok (), t) ∧
        Keeps v (micropartFrees v arg) s t := by
  induction n with
  | zero =>
    intro i s _
    exact ⟨s, rfl, .refl v _ s⟩
  | succ n ih =>
    intro i s hn
    have hi : i < arg.count.toInt.toNat := by omega
    obtain ⟨k, hk20, hk⟩ := hcov i hi
    obtain ⟨t, hloop, hkeep⟩ := ih (i + 1) (s.blit (v.map k) 0 blockSize fun _ => allocmapFree)
      (by omega)
    refine ⟨t, ?_, Keeps.trans (Keeps.blit hk20 ?_) hkeep⟩
    · rw [allocMicropartLoop, translateAddress_resident (hres i hi), hk]
      exact hloop
    · intro b hb hdiv _ _
      exact absurd ⟨i, hi, by rw [hk, hdiv]⟩ hb

theorem MapOk.allocMicropart (h : MapOk v s) {ret : Int} {r : Except CffsErr Unit}
    (hcov : (MapReq.allocMicropart arg ret).Covers v s)
    (hsound : (MapReq.allocMicropart arg ret).Sound v s resident)
    (hcall : servFsupdateAllocMicropart resident s arg ret = (r, t)) :
    MapOk v t ∧ MapStep v s r t := by
  unfold servFsupdateAllocMicropart at hcall
  split at hcall
  · cases hcall
    exact ⟨h, .ofSame h _⟩
  split at hcall
  · cases hcall
    exact ⟨h, .ofSame h _⟩
  have hcov' : ∀ i, i < arg.count.toInt.toNat →
      ∃ k, k < 2 ^ 20 ∧ arg.allocmap i = ⟨v.map k, 0⟩ := by
    intro i hi
    obtain ⟨k, hk, -, heq⟩ := hcov i hi
    exact ⟨k, hk, heq⟩
  obtain ⟨u, hloop, hk⟩ := allocMicropartLoop_keeps hcov' hsound.1
    arg.count.toInt.toNat 0 s (by omega)
  rw [hloop] at hcall
  cases hcall
  exact h.remarked hsound.2 hk

end

/-! ## 7. Runs -/

/-- A request together with the blocks that are in the cache when it is made. -/
abbrev MapCall := (Blk → Bool) × MapReq

def MapCall.Does (s : Store Blk) (q : MapCall) (t : Store Blk) : Prop :=
  ∃ r, q.2.exec s q.1 = some (r, t)

def MapCall.Ok (v : Volume) (s : Store Blk) (q : MapCall) : Prop :=
  q.2.Covers v s ∧ q.2.Sound v s q.1

theorem MapOk.step (h : MapOk v s) {q : MapCall} (hok : MapCall.Ok v s q)
    {r : Except CffsErr Unit} (hcall : q.2.exec s q.1 = some (r, t)) :
    MapOk v t ∧ MapStep v s r t := by
  obtain ⟨resident, req⟩ := q
  obtain ⟨hcov, hsound⟩ := hok
  cases req with
  | setptr action arg =>
    apply h.setptr hcov hsound
    exact Option.some.inj hcall
  | initAllocMap arg k => exact h.initAllocMap hcov hsound hcall
  | allocMicropart arg ret =>
    apply h.allocMicropart hcov hsound
    exact Option.some.inj hcall

/-- **In every run of requests that keep to `Sound`** a pointer's block is marked and is no other
    pointer's, and each request does what the server promises. -/
theorem map_agrees_of_sound (h0 : MapOk v s)
    (hrun : Run.Reaches MapCall.Does (MapCall.Ok v) s t) :
    MapOk v t ∧ ∀ (q : MapCall) (r : Except CffsErr Unit) (u : Store Blk),
      MapCall.Ok v t q → q.2.exec t q.1 = some (r, u) → MapStep v t r u := by
  have ht : MapOk v t := by
    apply hrun.invariant h0
    intro s q t hs hok hdoes
    cases hdoes with
    | intro r hcall => exact (hs.step hok hcall).1
  exact ⟨ht, fun q r u hok hcall => (ht.step hok hcall).2⟩

/-! A volume with its map on device 1 and a pointer at every aligned word of device 0. -/

def demoVolume : Volume where
  map k := ⟨1, BitVec.ofNat 32 k⟩
  slots := {r | r.blk.dev = 0 ∧ r.off.val % 4 = 0}
  map_inj j k hj hk h := by
    have hnat := congrArg BitVec.toNat (Blk.mk.inj h).2
    simp only [BitVec.toNat_ofNat] at hnat
    omega
  slot_apart r hr r' hr' hne hblk := by
    have hoff : r.off.val ≠ r'.off.val := by
      intro hoff
      apply hne
      cases r
      cases r'
      simp_all [Fin.ext_iff]
    have h := hr.2
    have h' := hr'.2
    omega
  slot_map r hr k h := by
    have hdev := hr.1
    rw [h] at hdev
    exact absurd hdev (by simp)

def wiped : Store Blk := fun _ _ => 0

theorem ptr_wiped (r : BcRef) : ptr wiped r = 0 := by
  change (0 : BitVec 8) ++ (0 : BitVec 8) ++ (0 : BitVec 8) ++ (0 : BitVec 8) = (0 : BitVec 32)
  decide

theorem wiped_mapOk : MapOk demoVolume wiped where
  inuse r _ hne := absurd (ptr_wiped r) hne
  unique r _ _ _ _ hne := absurd (ptr_wiped r) hne

/-- Set the first pointer of device 0 to a block. -/
def demoSet (action : SetptrAction) (b : BitVec 32) : MapReq :=
  .setptr action
    { sb := ⟨⟨2, 0⟩, 0⟩, dinode := ⟨⟨0, 0⟩, 0⟩, ptrloc := ⟨⟨0, 0⟩, 0⟩, val := b
      allocmap := ⟨demoVolume.map (b.toNat / blockSize), 0⟩ }

/-- The first three blocks of the map, of which two are of the first micropartition. -/
def demoInit : MapReq :=
  .initAllocMap ⟨fun i => ⟨demoVolume.map i, 0⟩, 3, 0⟩ ⟨0, 0, 0, 0⟩

theorem demoSet_covers (s : Store Blk) (b : BitVec 32) :
    (demoSet .allocate b).Covers demoVolume s := ⟨fun _ => ⟨rfl, rfl⟩, rfl⟩

def runReq (s : Store Blk) (q : MapReq) : Store Blk :=
  ((q.exec s fun _ => true).map Prod.snd).getD s

theorem map_agrees_after_allocate :
    MapOk demoVolume wiped ∧
    ptr (runReq wiped (demoSet .allocate 5)) ⟨⟨0, 0⟩, 0⟩ = 5 ∧
    MapOk demoVolume (runReq wiped (demoSet .allocate 5)) := by
  refine ⟨wiped_mapOk, by decide, ?_⟩
  have hok : MapCall.Ok demoVolume wiped (fun _ => true, demoSet .allocate 5) :=
    ⟨demoSet_covers _ _, by change (0 : BitVec 8) ≠ 2; decide⟩
  exact (map_agrees_of_sound wiped_mapOk (Run.Reaches.refl.call hok ⟨.ok (), rfl⟩)).1

/-- `initAllocMap` marks the third block of the map `NOTCFFS`, and the pointer is then set to one
    of the blocks that it stands for. -/
theorem notcffs_handed_out :
    MapOk demoVolume wiped ∧
    Run.Reaches MapCall.Does (fun s q => q.2.Covers demoVolume s) wiped
      (runReq wiped demoInit) ∧
    (demoSet .allocate 8199).Covers demoVolume (runReq wiped demoInit) ∧
    ∃ t, (demoSet .allocate 8199).exec (runReq wiped demoInit) (fun _ => true) = some (.ok (), t) ∧
      mapByte demoVolume (runReq wiped demoInit) 8199 = allocmapNotcffs ∧
      ¬ MapStep demoVolume (runReq wiped demoInit) (.ok ()) t := by
  refine ⟨wiped_mapOk, ?_, demoSet_covers _ _, _, rfl, by decide, ?_⟩
  · refine Run.Reaches.refl.call (i := (fun _ => true, demoInit)) (fun i _ => rfl) ⟨.ok (), rfl⟩
  · intro h
    exact h.notcffs ⟨⟨0, 0⟩, 0⟩ ⟨rfl, rfl⟩ (by decide) (by decide) (by decide)

end Cffs
end Exokernel
