import Exokernel.Proof.Rings

/-!
# Ring ids — which ids lead to rings, over whole runs

`sys_pktring_setring` gives out ids, and the other calls take them. **Three things must agree about
an id: that it was given out, that it is marked as used, and that it leads to a ring** (`RingsOk`).
They do in every run in which rings are handed over whole, no ring is shrunk by `modring` and ids
are the ones that were given out. Where one of these fails, so does the kernel, and each of the
error exits fails in its own way.
-/
set_option autoImplicit false

namespace Exokernel

open Function Option List

/-! ## 1. Editing a ring -/

/-- The ring `l` has become `l'`, which begins at `head`. -/
structure Edited (s s' : Rings) (head : Nat) (l l' : List Nat) : Prop where
  isRing : RingAt s' (some head) l'
  arrays : SameArrays s s'
  kept : Kept s s' l
  fresh : ∀ a ∈ l', a ∈ l ∨ s.live a = false

section
variable {kind : RingKind} {cur : Fin nenv} {s s' s₁ : Rings} {l l' : List Nat}
  {head head' kprev k n : Nat} {oldentry : BitVec 32}

theorem RingAt.reenter {o : Option Nat} (h : RingAt s o l) (hhead : head ∈ l) :
    ∃ l', RingAt s (some head) l' ∧ ∀ c, c ∈ l' ↔ c ∈ l := by
  obtain ⟨t', hcirc, hperm⟩ := h.circ.exists_first hhead
  exact ⟨head :: t', ⟨rfl, hcirc, fun c hc => h.live c (hperm.mem_iff.mp hc),
    fun c hc => h.owned c (hperm.mem_iff.mp hc)⟩, fun c => hperm.mem_iff⟩

theorem RingAt.head_mem (h : RingAt s (some head) l) : head ∈ l :=
  List.mem_of_mem_head? h.head.symm

theorem RingAt.ent? {o : Option Nat} {a : Nat} (h : RingAt s o l) (ha : a ∈ l) :
    s.ent? a = some (s.ents a) := by
  rw [Rings.ent?, if_pos (h.live a ha)]

theorem findPrev_mem (n : Nat) : ∀ {kprev : Nat}, RingAt s (some head) l → kprev ∈ l →
    findPrev s oldentry head n kprev = some k → k ∈ l := by
  induction n with
  | zero =>
    intro kprev _ _ h
    cases h
  | succ n ih =>
    intro kprev hring hmem h
    unfold findPrev at h
    have hnext := hring.circ.next_mem hmem
    rw [hring.ent? hmem, bind_some, hring.ent? hnext, bind_some] at h
    split at h
    · rwa [← some.inj h]
    split at h
    · rw [← some.inj h]
      exact hring.head_mem
    · exact ih hring hnext h

theorem findPrev_isSome (t : List Nat) : ∀ {n kprev : Nat},
    Follows (fun a => (s.ents a).next) (kprev :: t) head →
    (∀ a ∈ kprev :: t, s.live a = true) → s.live head = true → t.length < n →
    (findPrev s oldentry head n kprev).isSome = true := by
  induction t with
  | nil =>
    intro n kprev hf hlive hhead hn
    obtain ⟨n, rfl⟩ := Nat.exists_eq_add_of_lt hn
    have hnext : (s.ents kprev).next = head := hf.1
    have hk : s.live kprev = true := hlive kprev (mem_cons_self ..)
    simp only [length_nil, Nat.zero_add, findPrev, Rings.ent?, hk, hnext, hhead, if_true, bind_some]
    split <;> rfl
  | cons c t ih =>
    intro n kprev hf hlive hhead hn
    obtain ⟨n, rfl⟩ := Nat.exists_eq_succ_of_ne_zero (Nat.ne_zero_of_lt hn)
    have hnext : (s.ents kprev).next = c := hf.1
    have hk : s.live kprev = true := hlive kprev (mem_cons_self ..)
    have hc : s.live c = true := hlive c (mem_cons_of_mem _ (mem_cons_self ..))
    simp only [findPrev, Rings.ent?, hk, hnext, hc, if_true, bind_some]
    split
    · rfl
    split
    · rfl
    refine ih hf.2 (fun a ha => hlive a (mem_cons_of_mem _ ha)) hhead ?_
    rw [length_cons] at hn
    omega

theorem RingAt.findPrev (h : RingAt s (some head) l) (hn : l.length ≤ n) :
    ∃ kprev ∈ l, findPrev s oldentry head n head = some kprev := by
  have hsome : (Exokernel.findPrev s oldentry head n head).isSome = true := by
    cases l with
    | nil => exact nomatch h.head
    | cons c t =>
      obtain rfl : head = c := some.inj h.head
      exact findPrev_isSome t (h.circ.2 head rfl) h.live (h.live head h.head_mem) hn
  obtain ⟨kprev, hfind⟩ := isSome_iff_exists.mp hsome
  exact ⟨kprev, findPrev_mem n h h.head_mem hfind, hfind⟩

section
variable (h : RingAt s (some head) l) (hk : kprev ∈ l) (hnew : k ∉ l) (hlive : s.live k = true)
  (hown : (s.ents k).owner.isSome = true)
include h hk hnew hlive hown

theorem ringEdit_insert
    (he : ringEdit kind s head kprev (some k) false = some (head', s')) :
    ∃ l', RingAt s' (some head') l' ∧ SameArrays s s' ∧ Kept s s' (k :: l) ∧
      ∀ a ∈ l', a ∈ k :: l := by
  cases he
  obtain ⟨old, hold⟩ : ∃ old, old = (s.ents kprev).next := ⟨_, rfl⟩
  have hmem : old ∈ l := by
    rw [hold]
    exact h.circ.next_mem hk
  rw [← hold]
  obtain ⟨t, hcirc, hperm⟩ := h.circ.exists_first hmem
  have hsub : ∀ a, a ∈ old :: k :: t ↔ a = k ∨ a ∈ l := by
    intro a
    rw [← hperm.mem_iff, mem_cons, mem_cons, mem_cons]
    exact or_left_comm
  have hring : RingAt ((s.setNext k (s.ents old).next).setNext old k) (some old)
      (old :: k :: t) := by
    refine ⟨rfl, ?_, fun a ha => ?_, fun a ha => ?_⟩
    · rw [Rings.setNext_next, Rings.setNext_next]
      exact hcirc.insert fun hmem => hnew (hperm.mem_iff.mp hmem)
    · rcases (hsub a).mp ha with rfl | ha
      · exact hlive
      · exact h.live a ha
    rw [Rings.setNext_owner, Rings.setNext_owner]
    rcases (hsub a).mp ha with rfl | ha
    · exact hown
    · exact h.owned a ha
  obtain ⟨l', hl', hiff⟩ := hring.reenter ((hsub head).mpr (.inr h.head_mem))
  refine ⟨l', hl', .ofHeap s s.kern.mem _ _, fun a ha hla => ⟨hla, ?_⟩, fun a ha => ?_⟩
  · have hak : a ≠ k := fun heq => ha (heq ▸ mem_cons_self ..)
    have hao : a ≠ old := fun heq => ha (heq ▸ mem_cons_of_mem _ hmem)
    simp [Rings.setNext, Rings.modEnt, hak, hao]
  · exact mem_cons.mpr ((hsub a).mp ((hiff a).mp ha))

/-- A new entry takes the place of the one that was found, **if that is not the only one**. -/
theorem ringEdit_replace (htwo : (s.ents head).next ≠ head)
    (he : ringEdit kind s head kprev (some k) true = some (head', s')) :
    ∃ l', RingAt s' (some head') l' ∧ SameArrays s s' ∧ Kept s s' (k :: l) ∧
      ∀ a ∈ l', a ∈ k :: l := by
  unfold ringEdit at he
  dsimp only at he
  obtain ⟨old, hold⟩ : ∃ old, old = (s.ents kprev).next := ⟨_, rfl⟩
  rw [← hold] at he
  obtain ⟨s₁, hfree, hs₁⟩ := map_eq_some_iff.mp he
  cases hs₁
  obtain ⟨m, rfl, -⟩ := ringentFree_cases hfree
  obtain ⟨t, hcirc, hperm⟩ := h.circ.exists_first hk
  cases t with
  | nil =>
    obtain rfl : head = kprev := by simpa using hperm.mem_iff.mpr h.head_mem
    exact absurd hcirc.next_self htwo
  | cons c t =>
    obtain rfl : old = c := hold.trans hcirc.next_eq
    have hkl : k ∉ kprev :: old :: t := fun hmem => hnew (hperm.mem_iff.mp hmem)
    have hold_mem : old ∈ l := hperm.mem_iff.mp (mem_cons_of_mem _ (mem_cons_self ..))
    have hsub : ∀ a ∈ kprev :: k :: t, a = k ∨ a ∈ l ∧ a ≠ old := by
      intro a ha
      have hnd := hcirc.1
      simp only [nodup_cons, mem_cons, not_or] at hnd
      rcases mem_cons.mp ha with rfl | ha
      · exact .inr ⟨hk, hnd.1.1⟩
      rcases mem_cons.mp ha with rfl | ha
      · exact .inl rfl
      refine .inr ⟨hperm.mem_iff.mp (by simp [ha]), ?_⟩
      rintro rfl
      exact hnd.2.1 ha
    have hko : k ≠ old := fun heq => hkl (by simp [heq])
    obtain ⟨s₂, hs₂⟩ : ∃ s₂, s₂ =
      (((s.setNext k (s.ents old).next).setMem m).drop old).setNext kprev k := ⟨_, rfl⟩
    rw [← hs₂]
    have hlive₂ : s₂.live = update s.live old false := by
      rw [hs₂]
      rfl
    have hring : RingAt s₂ (some kprev) (kprev :: k :: t) := by
      refine ⟨rfl, ?_, fun a ha => ?_, fun a ha => ?_⟩
      · rw [hs₂, Rings.setNext_next]
        show Circ (update (fun a => ((s.setNext k (s.ents old).next).ents a).next) kprev k) _
        rw [Rings.setNext_next]
        exact hcirc.replaceNext hkl
      · rw [hlive₂]
        rcases hsub a ha with rfl | ⟨hal, hao⟩
        · rw [update_of_ne hko]
          exact hlive
        · rw [update_of_ne hao]
          exact h.live a hal
      · rw [hs₂, Rings.setNext_owner]
        show ((s.setNext k (s.ents old).next).ents a).owner.isSome = true
        rw [Rings.setNext_owner]
        rcases hsub a ha with rfl | ⟨hal, -⟩
        · exact hown
        · exact h.owned a hal
    have hhead : (if head = old then k else head) ∈ kprev :: k :: t := by
      split
      · simp
      rename_i hne
      have hmem := hperm.mem_iff.mpr h.head_mem
      simp only [mem_cons] at hmem ⊢
      rcases hmem with hmem | hmem | hmem
      · exact .inl hmem
      · exact absurd hmem hne
      · exact .inr (.inr hmem)
    obtain ⟨l', hl', hiff⟩ := hring.reenter hhead
    refine ⟨l', hl', ?_, fun a ha hla => ?_, fun a ha => ?_⟩
    · rw [hs₂]
      exact .ofHeap s m _ _
    · simp only [mem_cons, not_or] at ha
      obtain ⟨hak, hal⟩ := ha
      have hao : a ≠ old := fun heq => hal (heq ▸ hold_mem)
      have hap : a ≠ kprev := fun heq => hal (heq ▸ hk)
      rw [hlive₂, update_of_ne hao]
      refine ⟨hla, ?_⟩
      rw [hs₂]
      simp [Rings.setNext, Rings.modEnt, Rings.drop, Rings.setMem, hak, hap]
    · rcases hsub a ((hiff a).mp ha) with rfl | ⟨hal, -⟩
      · exact mem_cons_self ..
      · exact mem_cons_of_mem _ hal

end

/-- `pktringent_setup` changes nothing in use, whether it succeeds or not. -/
theorem ringentSetup_kept {u : UserEnt} {frame : BitVec 32} {a : Nat} {r : Option Nat}
    (h : ringentSetup kind s cur u frame a = some (r, s')) : SameArrays s s' ∧ Kept s s' [] := by
  cases r with
  | some k =>
    have hset := (ringentSetup_some h).2
    exact ⟨hset.arrays, hset.kept⟩
  | none =>
    rcases ringentSetup_cases h with ⟨m, -, -, rfl⟩ | ⟨m, -, hdead, ⟨hr, -⟩ | ⟨-, ⟨m', e, rfl⟩, -⟩⟩
    · exact ⟨.ofHeap s m _ _, fun a _ ha => ⟨ha, rfl⟩⟩
    · cases hr
    refine ⟨.ofHeap s m' _ _, fun c _ hc => ?_⟩
    have hca : c ≠ a := by
      rintro rfl
      rw [hdead] at hc
      cases hc
    simp [Rings.drop, Rings.modEnt, Rings.setMem, hca, hc]

theorem Edited.refl (h : RingAt s (some head) l) : Edited s s head l l :=
  ⟨h, .refl s, .refl s l, fun _ ha => .inl ha⟩

theorem SetUp.edited {u : UserEnt} (hs : SetUp kind cur s s₁ k u)
    (he : ∃ l', RingAt s' (some head) l' ∧ SameArrays s₁ s' ∧ Kept s₁ s' (k :: l) ∧
      ∀ a ∈ l', a ∈ k :: l) : ∃ l', Edited s s' head l l' := by
  obtain ⟨l', hring, harr, hkept, hsub⟩ := he
  refine ⟨l', hring, hs.arrays.trans harr, fun a ha hlive => ?_, fun a ha => ?_⟩
  · obtain ⟨h₁, h₂⟩ := hs.kept a not_mem_nil hlive
    obtain ⟨h₃, h₄⟩ := hkept a (by simp [ha, hs.ne hlive]) h₁
    exact ⟨h₃, h₄.trans h₂⟩
  rcases mem_cons.mp (hsub a ha) with rfl | ha
  · exact .inr hs.dead
  · exact .inl ha

variable {fuel a : Nat} {newentry frame : BitVec 32} {replace : Bool} {ram : Ram}
  {junk : Nat → BitVec 32 × BitVec 32} {r : Ret}

/-- **`sys_pktring_modring`** leaves a ring, if it is not told to delete an entry or to replace the
    only one. -/
theorem ringMod_edited (h : RingAt s (some head) l) (hdel : newentry = 0 → replace = false)
    (htwo : replace = true → (s.ents head).next ≠ head)
    (hmod : ringMod .pkt fuel s cur head newentry oldentry replace ram junk frame a =
      some (r, head', s')) : ∃ l', Edited s s' head' l l' := by
  unfold ringMod at hmod
  obtain ⟨kprev, hfind, hmod⟩ := bind_eq_some_iff.mp hmod
  have hk : kprev ∈ l := findPrev_mem fuel h h.head_mem hfind
  rw [h.ent? hk, bind_some, h.ent? (h.circ.next_mem hk), bind_some] at hmod
  split at hmod
  · cases hmod
    exact ⟨l, .refl h⟩
  split at hmod
  · rename_i h0
    rw [hdel h0] at hmod
    cases hmod
    exact ⟨l, .refl h⟩
  split at hmod
  · cases hmod
    exact ⟨l, .refl h⟩
  obtain ⟨⟨ktmp, s₁⟩, hsetup, hmod⟩ := bind_eq_some_iff.mp hmod
  obtain ⟨harr, hkept⟩ := ringentSetup_kept hsetup
  have h₁ : RingAt s₁ (some head) l := h.kept hkept fun _ _ => not_mem_nil
  cases ktmp with
  | none =>
    cases hmod
    exact ⟨l, h₁, harr, fun a _ => hkept a not_mem_nil, fun _ ha => .inl ha⟩
  | some k =>
    have hset := (ringentSetup_some hsetup).2
    obtain ⟨⟨hd, s₂⟩, hedit, hmod⟩ := map_eq_some_iff.mp hmod
    cases hmod
    have hnew : k ∉ l := fun hmem => hset.ne (h.live k hmem) rfl
    have hlive : s₁.live k = true := by rw [hset.live, update_self]
    cases replace with
    | false => exact hset.edited (ringEdit_insert h₁ hk hnew hlive hset.owned hedit)
    | true =>
      refine hset.edited (ringEdit_replace h₁ hk hnew hlive hset.owned ?_ hedit)
      rw [(hkept head not_mem_nil (h.live head h.head_mem)).2]
      exact htwo rfl

/-- On a ring, `sys_pktring_modring` does not find fault with its arguments. -/
theorem ringMod_ne_inval (hmod : ringMod .pkt fuel s cur head newentry oldentry replace ram junk
    frame a = some (r, head', s')) : r ≠ .err .inval := by
  unfold ringMod at hmod
  obtain ⟨kprev, -, hmod⟩ := bind_eq_some_iff.mp hmod
  obtain ⟨e, -, hmod⟩ := bind_eq_some_iff.mp hmod
  obtain ⟨t, -, hmod⟩ := bind_eq_some_iff.mp hmod
  split at hmod
  · cases hmod
    exact nofun
  split at hmod
  · obtain ⟨x, -, hmod⟩ := map_eq_some_iff.mp hmod
    cases hmod
    exact nofun
  split at hmod
  · cases hmod
    exact nofun
  obtain ⟨⟨ktmp, s₁⟩, -, hmod⟩ := bind_eq_some_iff.mp hmod
  cases ktmp with
  | none =>
    cases hmod
    exact nofun
  | some k =>
    obtain ⟨x, -, hmod⟩ := map_eq_some_iff.mp hmod
    cases hmod
    exact nofun

/-- Without a new entry and without `replace` it is a search, which ends. -/
theorem ringMod_lookup (h : RingAt s (some head) l) (hfuel : l.length ≤ fuel) :
    ∃ r, ringMod .pkt fuel s cur head 0 oldentry false ram junk frame a = some (r, head, s) ∧
      (r = .ok ∨ r = .err .notFound) := by
  obtain ⟨kprev, hk, hfind⟩ := h.findPrev hfuel
  unfold ringMod
  rw [hfind, bind_some, h.ent? hk, bind_some, h.ent? (h.circ.next_mem hk), bind_some]
  split
  · exact ⟨_, rfl, .inr rfl⟩
  · exact ⟨_, rfl, .inl rfl⟩

end

/-! ## 2. All rings -/

/-- Every element of the array leads to a ring, and no entry is in two of them. -/
structure RingLists (s : Rings) (lists : Nat → List Nat) : Prop where
  ring : ∀ i, RingAt s (s.rings i) (lists i)
  apart : ∀ i j, i ≠ j → ∀ a ∈ lists i, a ∉ lists j

/-- A user's ring that `sys_pktring_setring` takes: it is read without a fault and closes at its
    head, every entry passes the checks, and there is memory for the entries. -/
def WholeRing (k : Kernel) (cur : Fin nenv) (ram : Ram) (junk : Nat → BitVec 32 × BitVec 32)
    (head : BitVec 32) : Prop :=
  ∃ n us, readRing k cur ram junk head n head = some us ∧ (∀ u ∈ us, PktEntOk k cur u) ∧
    RoomFor k.mem us.length (us.flatMap fun u => entPages k cur u .pkt)

section
variable {cur : Fin nenv} {s s' : Rings} {lists : Nat → List Nat} {l' : List Nat} {i fuel : Nat}

theorem RingAt.congr {o : Option Nat} {l : List Nat} (h : RingAt s o l) (he : s'.ents = s.ents)
    (hl : s'.live = s.live) : RingAt s' o l := by
  refine ⟨h.head, ?_, fun a ha => ?_, fun a ha => ?_⟩
  · rw [he]
    exact h.circ
  · rw [hl]
    exact h.live a ha
  · rw [he]
    exact h.owned a ha

theorem RingLists.congr (h : RingLists s lists) (he : s'.ents = s.ents) (hl : s'.live = s.live)
    (hr : s'.rings = s.rings) : RingLists s' lists := by
  refine ⟨fun i => ?_, h.apart⟩
  rw [hr]
  exact (h.ring i).congr he hl

/-- **A call works on one ring.** What it puts there was there before or was not in use, so the
    rings stay apart. -/
theorem RingLists.set (h : RingLists s lists) (hring : RingAt s' (s'.rings i) l')
    (hothers : ∀ j, j ≠ i → s'.rings j = s.rings j) (hkept : Kept s s' (lists i))
    (hfresh : ∀ a ∈ l', a ∈ lists i ∨ s.live a = false) :
    RingLists s' (update lists i l') := by
  have hout : ∀ j, j ≠ i → ∀ a ∈ l', a ∉ lists j := by
    intro j hj a ha hmem
    rcases hfresh a ha with hi | hdead
    · exact h.apart j i hj a hmem hi
    · rw [(h.ring j).live a hmem] at hdead
      cases hdead
  refine ⟨fun j => ?_, fun j k hjk a ha => ?_⟩
  · by_cases hj : j = i
    · subst hj
      rwa [update_self]
    · rw [update_of_ne hj, hothers j hj]
      exact (h.ring j).kept hkept fun a ha => h.apart j i hj a ha
  by_cases hj : j = i
  · subst hj
    rw [update_self] at ha
    rw [update_of_ne hjk.symm]
    exact hout k hjk.symm a ha
  · rw [update_of_ne hj] at ha
    by_cases hk : k = i
    · subst hk
      rw [update_self]
      exact fun hmem => hout j hj a hmem ha
    · rw [update_of_ne hk]
      exact h.apart j k hjk a ha

theorem RingLists.setRing {o : Option Nat} (h : RingLists s lists) (hr : s'.rings = s.rings)
    (hring : RingAt s' o l') (hkept : Kept s s' (lists i))
    (hfresh : ∀ a ∈ l', a ∈ lists i ∨ s.live a = false) :
    RingLists (s'.setRing i o) (update lists i l') ∧ (s'.setRing i o).rings i = o ∧
      ∀ j, j ≠ i → (s'.setRing i o).rings j = s.rings j := by
  have hsame : (s'.setRing i o).rings i = o := update_self ..
  have hothers : ∀ j, j ≠ i → (s'.setRing i o).rings j = s.rings j := by
    intro j hj
    rw [← hr]
    exact update_of_ne hj _ _
  refine ⟨h.set ?_ hothers hkept hfresh, hsame, hothers⟩
  rw [hsame]
  exact hring.congr rfl rfl

variable {id : Nat} {head frame : BitVec 32} {ram : Ram} {junk : Nat → BitVec 32 × BitVec 32}
  {addrs : List Nat} {r : Except Ret Nat}

/-- Freeing a ring, or what is taken for one, leaves the page tables alone. -/
theorem ringFree_arrays {kind : RingKind} (n : Nat) :
    ∀ {s : Rings} {o : Option Nat}, ringFree kind n s o = some s' → SameArrays s s' := by
  intro s o h
  fun_induction ringFree kind n s o with
  | case1 => cases h; exact .refl _
  | case2 => cases h
  | case3 n s head ih =>
    obtain ⟨e, -, h⟩ := bind_eq_some_iff.mp h
    obtain ⟨t, -, h⟩ := bind_eq_some_iff.mp h
    obtain ⟨s₁, hfree, hrest⟩ := bind_eq_some_iff.mp h
    obtain ⟨m, rfl, -⟩ := ringentFree_cases hfree
    exact SameArrays.trans (.ofHeap s m _ _) (ih _ _ _ hrest)

/-- A call has made `ring`: the loop ended, and then the ring was put in its place. -/
def RingMade (kind : RingKind) (cur : Fin nenv) (ram : Ram) (junk : Nat → BitVec 32 × BitVec 32)
    (frame head : BitVec 32) (addrs : List Nat) (s s' : Rings) (ring : Option Nat) : Prop :=
  ∃ m t s₁, t.kern = s.kern.setMem m ∧
    setringLoop kind cur ram junk frame head addrs head none t = some (.done, ring, s₁) ∧
    s'.ents = s₁.ents ∧ s'.live = s₁.live

theorem pktringSet_ok (h : pktringSet fuel s cur i head ram junk frame addrs = some (.ok id, s')) :
    RingMade .pkt cur ram junk frame head addrs s s' (s'.rings id) := by
  obtain ⟨s₁, hfree, h⟩ := bind_eq_some_iff.mp h
  obtain ⟨m, hm⟩ := (ringFree_arrays fuel hfree).kern
  obtain ⟨⟨res, ring, s₂⟩, hloop, h⟩ := bind_eq_some_iff.mp h
  cases res with
  | done =>
    cases h
    refine ⟨m, s₁.setRing i none, s₂, hm, ?_, rfl, rfl⟩
    rw [hloop]
    simp [Rings.setRing]
  | failed =>
    obtain ⟨x, -, hx⟩ := map_eq_some_iff.mp h
    cases hx
  | faulted => cases h

theorem sysPktringSetring_ok {ringid : BitVec 32}
    (h : sysPktringSetring fuel s cur ringid head ram junk frame addrs = some (.ok id, s')) :
    RingMade .pkt cur ram junk frame head addrs s s' (s'.rings id) := by
  unfold sysPktringSetring at h
  split at h
  · split at h
    · cases h
    · exact (pktringSet_ok h :)
  · exact (pktringSet_ok h :)

theorem sysMsgringSetring_ok
    (h : sysMsgringSetring fuel s cur head ram junk frame addrs = some (.ok, s')) :
    RingMade .msg cur ram junk frame head addrs s s' (s'.msgring cur) := by
  obtain ⟨s₁, hfree, h⟩ := bind_eq_some_iff.mp h
  obtain ⟨m, hm⟩ := (ringFree_arrays fuel hfree).kern
  obtain ⟨⟨res, ring, s₂⟩, hloop, h⟩ := bind_eq_some_iff.mp h
  cases res with
  | done =>
    cases h
    refine ⟨m, { s₁ with msgring := update s₁.msgring cur none }, s₂, hm, ?_, rfl, rfl⟩
    rw [hloop]
    simp
  | failed =>
    obtain ⟨x, -, hx⟩ := map_eq_some_iff.mp h
    cases hx
  | faulted => cases h

/-- **`sys_pktring_setring`** puts the ring it takes where the old one was. -/
theorem pktringSet_whole (h : RingLists s lists) (ht : WholeRing s.kern cur ram junk head)
    (hset : pktringSet fuel s cur id head ram junk frame addrs = some (r, s')) :
    r = .ok id ∧ (∃ lists', RingLists s' lists') ∧ s'.ringused = s.ringused ∧ s'.wild = s.wild ∧
      (s'.rings id).isSome = true ∧ ∀ j, j ≠ id → s'.rings j = s.rings j := by
  obtain ⟨n, us, hread, hok, hroom⟩ := ht
  obtain ⟨s₁, hfree, hset⟩ := bind_eq_some_iff.mp hset
  have hf := (ringFree_spec fuel (h.ring id)).2 s₁ hfree
  obtain ⟨⟨res, ring, s₂⟩, hloop, hset⟩ := bind_eq_some_iff.mp hset
  obtain ⟨m, hm⟩ := hf.arrays.kern
  have hdone : res = .done := by
    have hread' : readRing (s₁.setRing id none).kern cur ram junk head n head = some us := by
      show readRing s₁.kern cur ram junk head n head = some us
      rw [hm, readRing_setMem]
      exact hread
    refine setringLoop_complete addrs hread' (fun u hu => ?_) ?_ hloop
    · show PktEntOk s₁.kern cur u
      rw [hm]
      exact (hok u hu).setMem m
    · have hroom₁ := hf.looser.room hroom
      show RoomFor s₁.kern.mem us.length (us.flatMap fun u => entPages s₁.kern cur u .pkt)
      rw [hm] at hroom₁ ⊢
      exact hroom₁
  subst hdone
  have hnone : MadeAt (s₁.setRing id none) [] none := rfl
  obtain ⟨l', us', -, hb⟩ := setringLoop_done addrs hnone (fun c hc => by simp at hc) hloop
  cases hset
  -- first the place is empty, then the new ring is there
  obtain ⟨hl₁, -, ho₁⟩ := h.setRing hf.arrays.rings (.nil s₁) hf.kept fun _ ha => by simp at ha
  obtain ⟨hl₂, hid, ho₂⟩ := hl₁.setRing hb.arrays.rings hb.isRing (by rw [update_self]; exact hb.kept)
    fun a ha => .inr (hb.fresh a ha)
  refine ⟨rfl, ⟨_, hl₂.congr rfl rfl rfl⟩, hb.arrays.ringused.trans hf.arrays.ringused,
    hb.arrays.wild.trans hf.arrays.wild, ?_, fun j hj => (ho₂ j hj).trans (ho₁ j hj)⟩
  rw [hid]
  exact isSome_iff_ne_none.mpr hb.found

end

/-! ## 3. Runs -/

/-- The calls on packet rings, and anything else the kernel does meanwhile. -/
inductive RingOp where
  | setring (fuel : Nat) (cur : Fin nenv) (ringid head : BitVec 32) (ram : Ram)
      (junk : Nat → BitVec 32 × BitVec 32) (frame : BitVec 32) (addrs : List Nat)
  | modring (fuel : Nat) (cur : Fin nenv) (ringid newentry oldentry : BitVec 32) (replace : Bool)
      (ram : Ram) (junk : Nat → BitVec 32 × BitVec 32) (frame : BitVec 32) (a : Nat)
  | delring (fuel : Nat) (ringid : BitVec 32)
  | handlepkt (ringid : BitVec 32) (pkt : List (BitVec 8)) (ram : Ram)
  | other (k : Kernel)

/-- The rings, and which ids `setring` has given out that were not deleted since. -/
structure RingRun where
  rings : Rings
  issued : Nat → Bool

/-- Ids are given out by `setring` and taken back by `delring`. -/
def RingOp.exec (p : RingRun) : RingOp → Option RingRun
  | .setring fuel cur ringid head ram junk frame addrs =>
    (sysPktringSetring fuel p.rings cur ringid head ram junk frame addrs).map fun
      | (.ok id, s) => ⟨s, update p.issued id true⟩
      | (.error _, s) => ⟨s, p.issued⟩
  | .modring fuel cur ringid newentry oldentry replace ram junk frame a =>
    (sysPktringModring fuel p.rings cur ringid newentry oldentry replace ram junk frame a).map
      fun (_, s) => ⟨s, p.issued⟩
  | .delring fuel ringid =>
    (sysPktringDelring fuel p.rings ringid).map fun
      | (.ok, s) => ⟨s, update p.issued ringid.toNat false⟩
      | (_, s) => ⟨s, p.issued⟩
  | .handlepkt ringid pkt ram =>
    (pktringHandlepkt p.rings ringid pkt ram).map fun (s, _) => ⟨s, p.issued⟩
  | .other k => some ⟨{ p.rings with kern := k }, p.issued⟩

/-- An id that `setring` may be called with: 0, if the id that is free is not the last one, or one
    in use. -/
def IdFits (s : Rings) (ringid : BitVec 32) : Prop :=
  if ringid = 0 then freeRingid s ≠ some maxPktringCount
  else ringid.toNat < maxPktringCount ∧ s.ringused ringid.toNat = true

/-- The calls that leave rings and ids in order. `setring` gets an id that fits and a whole ring, or
    finds no id at all; `modring` does not delete, and does not replace an entry that has no
    other beside it. -/
def RingOp.Fits (s : Rings) : RingOp → Prop
  | .setring _ cur ringid head ram junk _ _ =>
    (ringid = 0 ∧ freeRingid s = none) ∨ (IdFits s ringid ∧ WholeRing s.kern cur ram junk head)
  | .modring _ _ ringid newentry _ replace _ _ _ _ =>
    ∀ head, s.rings ringid.toNat = some head →
      (newentry = 0 → replace = false) ∧ (replace = true → (s.ents head).next ≠ head)
  | .delring .. => True
  | .handlepkt .. => True
  | .other .. => True

/-- An id is given out exactly if it is marked as used, and exactly if it leads to a ring. -/
structure RingsOk (p : RingRun) : Prop where
  lists : ∃ lists, RingLists p.rings lists
  used : ∀ i, p.rings.ringused i = (p.rings.rings i).isSome
  given : ∀ i, p.issued i = (p.rings.rings i).isSome
  small : ∀ i, (p.rings.rings i).isSome = true → i < maxPktringCount
  tame : p.rings.wild = false

section
variable {s s' : Rings} {issued : Nat → Bool}

theorem RingsOk.init (k : Kernel) : RingsOk ⟨pktringInit k, fun _ => false⟩ where
  lists := ⟨fun _ => [], fun _ => .nil _, fun _ _ _ _ ha => by simp at ha⟩
  used _ := rfl
  given _ := rfl
  small _ h := nomatch h
  tame := rfl

variable {fuel i : Nat} {ram : Ram} {ringid : BitVec 32}

/-- Element `i` of the array has changed, and all that belongs to it. -/
theorem RingsOk.set {b : Bool} (h : RingsOk ⟨s, issued⟩)
    (hlists : ∃ lists, RingLists s' lists) (hothers : ∀ j, j ≠ i → s'.rings j = s.rings j)
    (hi : (s'.rings i).isSome = b) (hsmall : b = true → i < maxPktringCount)
    (hused : s'.ringused = update s.ringused i b) (hwild : s'.wild = s.wild) :
    RingsOk ⟨s', update issued i b⟩ := by
  have hall : ∀ j (f : Nat → Bool), (∀ j, f j = (s.rings j).isSome) →
      update f i b j = (s'.rings j).isSome := by
    intro j f hf
    by_cases hj : j = i
    · rw [hj, update_self, hi]
    · rw [update_of_ne hj, hothers j hj]
      exact hf j
  refine ⟨hlists, fun j => ?_, fun j => hall j _ h.given, fun j hj => ?_, hwild.trans h.tame⟩
  · show s'.ringused j = (s'.rings j).isSome
    rw [hused]
    exact hall j _ h.used
  have hsome : (s'.rings j).isSome = true := hj
  by_cases hji : j = i
  · subst hji
    exact hsmall (hi.symm.trans hsome)
  rw [hothers j hji] at hsome
  exact h.small j hsome

/-- Rings have changed, but not which ids lead to one. -/
theorem RingsOk.edit (h : RingsOk ⟨s, issued⟩) (hlists : ∃ lists, RingLists s' lists)
    (hothers : ∀ j, j ≠ i → s'.rings j = s.rings j)
    (hi : (s'.rings i).isSome = (s.rings i).isSome)
    (hused : s'.ringused = s.ringused) (hwild : s'.wild = s.wild) : RingsOk ⟨s', issued⟩ := by
  have hset := h.set hlists hothers hi (h.small i) (by rw [hused, ← h.used i, update_eq_self]) hwild
  rwa [← h.given i, update_eq_self] at hset

theorem freeRingid_some (h : freeRingid s = some i) :
    s.ringused i = false ∧ 0 < i ∧ i ≤ maxPktringCount := by
  have hmem := mem_of_find?_eq_some h
  have hfree := List.find?_some h
  rw [mem_range'_1] at hmem
  exact ⟨by simpa using hfree, by omega, by omega⟩

/-- **`sys_pktring_setring`**, called as it should be, gives out an id and a ring with it, or there
    is no id and nothing changes. -/
theorem RingsOk.setring {cur : Fin nenv} {head : BitVec 32}
    {junk : Nat → BitVec 32 × BitVec 32} {frame : BitVec 32} {addrs : List Nat}
    {r : Except Ret Nat} (h : RingsOk ⟨s, issued⟩)
    (hf : RingOp.Fits s (.setring fuel cur ringid head ram junk frame addrs))
    (hset : sysPktringSetring fuel s cur ringid head ram junk frame addrs = some (r, s')) :
    (∃ id, r = .ok id ∧ RingsOk ⟨s', update issued id true⟩) ∨
      (r = .error (.err .noPktrings) ∧ s' = s) := by
  unfold sysPktringSetring at hset
  obtain ⟨lists, hlists⟩ := h.lists
  split at hset
  · rename_i h0
    subst h0
    cases hfree : freeRingid s with
    | none =>
      rw [hfree] at hset
      cases hset
      exact .inr ⟨rfl, rfl⟩
    | some i =>
      rw [hfree] at hset
      rcases hf with ⟨-, hnone⟩ | ⟨hid, hwhole⟩
      · rw [hfree] at hnone
        cases hnone
      rw [IdFits, if_pos rfl, hfree] at hid
      have hlt : i < maxPktringCount :=
        lt_of_le_of_ne (freeRingid_some hfree).2.2 fun heq => hid (by rw [heq])
      have hlists' : RingLists (s.setUsed i true) lists := hlists.congr rfl rfl rfl
      obtain ⟨hr, hl, hused, hwild, hsome, hothers⟩ := pktringSet_whole hlists' hwhole hset
      exact .inl ⟨i, hr, h.set hl hothers hsome (fun _ => hlt) hused hwild⟩
  · rename_i h0
    rcases hf with ⟨hzero, -⟩ | ⟨hid, hwhole⟩
    · exact absurd hzero h0
    rw [IdFits, if_neg h0] at hid
    obtain ⟨hlt, huse⟩ := hid
    have hlists' : RingLists (s.index ringid.toNat) lists := hlists.congr rfl rfl rfl
    obtain ⟨hr, hl, hused, hwild, hsome, hothers⟩ := pktringSet_whole hlists' hwhole hset
    refine .inl ⟨_, hr, h.set hl hothers hsome (fun _ => hlt) ?_ ?_⟩
    · rw [hused]
      show s.ringused = _
      rw [← huse, update_eq_self]
    rw [hwild]
    show (s.wild || decide (maxPktringCount < ringid.toNat)) = s.wild
    rw [decide_eq_false (by omega), Bool.or_false]

/-- **`sys_pktring_modring`** edits the ring it is given. -/
theorem RingsOk.modring {cur : Fin nenv} {newentry oldentry : BitVec 32}
    {replace : Bool} {junk : Nat → BitVec 32 × BitVec 32} {frame : BitVec 32} {a : Nat}
    {r : Ret} (h : RingsOk ⟨s, issued⟩)
    (hf : RingOp.Fits s (.modring fuel cur ringid newentry oldentry replace ram junk frame a))
    (hmod : sysPktringModring fuel s cur ringid newentry oldentry replace ram junk frame a =
      some (r, s')) : RingsOk ⟨s', issued⟩ := by
  unfold sysPktringModring at hmod
  split at hmod
  · cases hmod
    exact h
  split at hmod
  · cases hmod
    exact h
  split at hmod
  · cases hmod
    exact h
  rename_i head hhead
  obtain ⟨⟨r₁, head', s₁⟩, hring, hs'⟩ := map_eq_some_iff.mp hmod
  cases hs'
  obtain ⟨lists, hlists⟩ := h.lists
  obtain ⟨hdel, htwo⟩ := hf head hhead
  have hat := hlists.ring ringid.toNat
  rw [hhead] at hat
  obtain ⟨l', he⟩ := ringMod_edited hat hdel htwo hring
  obtain ⟨hl, hsame, hothers⟩ := hlists.setRing he.arrays.rings he.isRing he.kept he.fresh
  exact h.edit ⟨_, hl⟩ hothers (by rw [hsame, hhead]; rfl) he.arrays.ringused he.arrays.wild

/-- **`sys_pktring_delring`** takes back the id, the mark and the ring. -/
theorem RingsOk.delring {r : Ret} (h : RingsOk ⟨s, issued⟩)
    (hdel : sysPktringDelring fuel s ringid = some (r, s')) :
    (r = .ok ∧ RingsOk ⟨s', update issued ringid.toNat false⟩) ∨ (r ≠ .ok ∧ s' = s) := by
  unfold sysPktringDelring at hdel
  split at hdel
  · cases hdel
    exact .inr ⟨nofun, rfl⟩
  rename_i hlt
  split at hdel
  · cases hdel
    exact .inr ⟨nofun, rfl⟩
  obtain ⟨s₁, hfree, hs'⟩ := map_eq_some_iff.mp hdel
  cases hs'
  obtain ⟨lists, hlists⟩ := h.lists
  have hf := (ringFree_spec fuel (hlists.ring ringid.toNat)).2 s₁ hfree
  obtain ⟨hl, hsame, hothers⟩ :=
    hlists.setRing hf.arrays.rings (.nil s₁) hf.kept fun _ ha => by simp at ha
  refine .inl ⟨rfl, h.set ⟨_, hl.congr rfl rfl rfl⟩ hothers (congrArg isSome hsame) nofun ?_
    hf.arrays.wild⟩
  show update s₁.ringused ringid.toNat false = _
  rw [hf.arrays.ringused]

/-- **`pktring_handlepkt`** turns a ring by one entry. -/
theorem RingsOk.handlepkt {pkt : List (BitVec 8)} {ram' : Ram}
    (h : RingsOk ⟨s, issued⟩) (hp : pktringHandlepkt s ringid pkt ram = some (s', ram')) :
    RingsOk ⟨s', issued⟩ := by
  unfold pktringHandlepkt at hp
  split at hp
  · cases hp
    exact h
  split at hp
  · cases hp
    exact h
  rename_i head hhead
  split at hp
  · cases hp
    exact h
  obtain ⟨lists, hlists⟩ := h.lists
  have hat := hlists.ring ringid.toNat
  rw [hhead] at hat
  rw [hat.ent? hat.head_mem, bind_some] at hp
  obtain ⟨owner, -, hp⟩ := map_eq_some_iff.mp hp
  split at hp
  · cases hp
    exact h
  rw [← (Prod.mk.inj hp).1]
  obtain ⟨l', hring, hiff⟩ := hat.reenter (hat.circ.next_mem hat.head_mem)
  obtain ⟨hl, hsame, hothers⟩ := hlists.setRing (i := ringid.toNat) rfl hring
    (fun a _ ha => ⟨ha, rfl⟩) fun a ha => .inl ((hiff a).mp ha)
  exact h.edit ⟨_, hl⟩ hothers (by rw [hsame, hhead]; rfl) rfl rfl

/-- **Every call that fits keeps rings and ids in order.** -/
theorem RingsOk.exec {p p' : RingRun} (op : RingOp) (h : RingsOk p) (hf : op.Fits p.rings)
    (he : op.exec p = some p') : RingsOk p' := by
  cases op with
  | setring fuel cur ringid head ram junk frame addrs =>
    obtain ⟨⟨r, s'⟩, hset, hp⟩ := map_eq_some_iff.mp he
    rcases h.setring hf hset with ⟨id, rfl, hok⟩ | ⟨rfl, rfl⟩
    · rw [← hp]
      exact hok
    · rw [← hp]
      exact h
  | modring fuel cur ringid newentry oldentry replace ram junk frame a =>
    obtain ⟨⟨r, s'⟩, hmod, rfl⟩ := map_eq_some_iff.mp he
    exact h.modring hf hmod
  | delring fuel ringid =>
    obtain ⟨⟨r, s'⟩, hdel, hp⟩ := map_eq_some_iff.mp he
    rcases h.delring hdel with ⟨rfl, hok⟩ | ⟨hr, rfl⟩
    · rw [← hp]
      exact hok
    cases r with
    | ok => exact absurd rfl hr
    | err e =>
      rw [← hp]
      exact h
    | fault =>
      rw [← hp]
      exact h
  | handlepkt ringid pkt ram =>
    obtain ⟨⟨s', ram'⟩, hpkt, rfl⟩ := map_eq_some_iff.mp he
    exact h.handlepkt hpkt
  | other k =>
    cases he
    obtain ⟨lists, hlists⟩ := h.lists
    exact ⟨⟨lists, hlists.congr rfl rfl rfl⟩, h.used, h.given, h.small, h.tame⟩

/-! ## 4. What an id is good for -/

/-- The calls take an id. `delring` succeeds; `modring` searches the ring to the end and never calls
    the id invalid; `handlepkt` delivers a packet as soon as the owner word is 0. -/
structure Accepted (s : Rings) (ringid : BitVec 32) : Prop where
  delring : ∃ n, ∀ fuel, n ≤ fuel → ∃ s', sysPktringDelring fuel s ringid = some (.ok, s')
  search : ∃ n, ∀ fuel, n ≤ fuel → ∀ cur oldentry ram junk frame a, oldentry ≠ 0 →
    ∃ r, sysPktringModring fuel s cur ringid 0 oldentry false ram junk frame a = some (r, s) ∧
      (r = .ok ∨ r = .err .notFound)
  modring : ∀ fuel cur newentry oldentry replace ram junk frame a r s', oldentry ≠ 0 →
    sysPktringModring fuel s cur ringid newentry oldentry replace ram junk frame a = some (r, s') →
    r ≠ .err .inval
  handlepkt : ∃ head owner, s.rings ringid.toNat = some head ∧ (s.ents head).owner = some owner ∧
    ∀ pkt ram, pkt ≠ [] → ldPhys ram owner = 0 →
      pktringHandlepkt s ringid pkt ram =
        some (s.setRing ringid.toNat (some (s.ents head).next),
          stBytes (fillBuffers ram (s.ents head).body pkt) owner
            (wordBytes (BitVec.ofNat 32 pkt.length)))

/-- What is promised about ids, if `setring` is called within `fits`. -/
structure IdsConsistent (fits : Rings → RingOp → Prop) (p : RingRun) : Prop where
  bounds : p.rings.wild = false
  circular : ∀ i, p.rings.rings i = none ∨ ∃ head l, p.rings.rings i = some head ∧
    RingAt p.rings (some head) l
  used : ∀ i, p.rings.rings i ≠ none → p.rings.ringused i = true
  accepted : ∀ ringid : BitVec 32, p.issued ringid.toNat = true → Accepted p.rings ringid
  failing : ∀ fuel cur ringid head ram junk frame addrs e s',
    fits p.rings (.setring fuel cur ringid head ram junk frame addrs) →
    sysPktringSetring fuel p.rings cur ringid head ram junk frame addrs = some (.error e, s') →
    ∀ i, s'.ringused i = true → p.rings.ringused i = true

theorem RingsOk.accepted {p : RingRun} (h : RingsOk p)
    (hid : p.issued ringid.toNat = true) : Accepted p.rings ringid := by
  obtain ⟨s, issued⟩ := p
  obtain ⟨lists, hlists⟩ := h.lists
  have hat := hlists.ring ringid.toNat
  have hsome : (s.rings ringid.toNat).isSome = true := (h.given _).symm.trans hid
  have hused : s.ringused ringid.toNat = true := (h.used _).trans hsome
  have hlt : ¬maxPktringCount ≤ ringid.toNat := not_le.mpr (h.small _ hsome)
  obtain ⟨head, hhead⟩ := isSome_iff_exists.mp hsome
  dsimp only at hat
  rw [hhead] at hat
  obtain ⟨owner, howner⟩ := isSome_iff_exists.mp (hat.owned head hat.head_mem)
  refine ⟨⟨(lists ringid.toNat).length, fun fuel hfuel => ?_⟩, ⟨(lists ringid.toNat).length,
      fun fuel hfuel cur oldentry ram junk frame a hold => ?_⟩,
    fun fuel cur newentry oldentry replace ram junk frame a r s' hold hmod => ?_,
    head, owner, hhead, howner, fun pkt ram hpkt hfree => ?_⟩
  · have hfree : (ringFree .pkt fuel s (some head)).isSome = true :=
      (ringFree_spec fuel hat).1 hfuel
    obtain ⟨s', hs'⟩ := isSome_iff_exists.mp hfree
    refine ⟨(s'.setRing ringid.toNat none).setUsed ringid.toNat false, ?_⟩
    rw [sysPktringDelring, if_neg hlt, if_neg (by rw [hused]; exact Bool.false_ne_true), hhead, hs']
    rfl
  · obtain ⟨r, hr, hres⟩ : ∃ r, ringMod .pkt fuel s cur head 0 oldentry false ram junk frame a =
        some (r, head, s) ∧ (r = .ok ∨ r = .err .notFound) := ringMod_lookup hat hfuel
    refine ⟨r, ?_, hres⟩
    rw [sysPktringModring, if_neg hlt, if_neg hold, hhead]
    dsimp only
    rw [hr, map_some, ← hhead, Rings.setRing, update_eq_self]
  · rw [sysPktringModring, if_neg hlt, if_neg hold, hhead] at hmod
    obtain ⟨⟨r₁, head', s₁⟩, hring, hs'⟩ := map_eq_some_iff.mp hmod
    rw [← (Prod.mk.inj hs').1]
    exact ringMod_ne_inval hring
  · rw [pktringHandlepkt, if_neg hlt, hhead]
    dsimp only
    rw [if_neg (by simpa using hpkt), hat.ent? hat.head_mem, bind_some, howner,
      map_some, if_neg (not_not.mpr hfree)]

/-- **Ids and rings agree after every run of calls that fit**: nothing outside the arrays is touched,
    what is in the array is a ring in use, its id is marked and works with the other calls, and a
    `setring` that fails marks nothing. -/
theorem ring_ids_consistent {k : Kernel} {p : RingRun}
    (h : Run.Reaches (fun p op p' => RingOp.exec p op = some p') (fun p op => op.Fits p.rings)
      ⟨pktringInit k, fun _ => false⟩ p) : IdsConsistent RingOp.Fits p := by
  have hok : RingsOk p := h.invariant (I := RingsOk) (.init k)
    fun _ op _ hinv hfits hexec => hinv.exec op hfits hexec
  obtain ⟨s, issued⟩ := p
  obtain ⟨lists, hlists⟩ := hok.lists
  refine ⟨hok.tame, fun i => ?_, fun i hi => ?_, fun ringid hid => hok.accepted hid, ?_⟩
  · cases hi : s.rings i with
    | none => exact .inl rfl
    | some head => exact .inr ⟨head, lists i, rfl, hi ▸ hlists.ring i⟩
  · rw [hok.used i]
    exact isSome_iff_ne_none.mpr hi
  intro fuel cur ringid head ram junk frame addrs e s' hfits hset i hi
  rcases hok.setring hfits hset with ⟨id, hr, -⟩ | ⟨-, rfl⟩
  · cases hr
  · exact hi

end

/-- At `0x1000` a ring of one entry without buffers, whose owner word is at `0x1100`. -/
def oneEntry : Ram := fun pa => if pa = 0x5001 then 0x10 else if pa = 0x5005 then 0x11 else 0

def setOne : RingOp := .setring 0 0 0 0x1000 oneEntry (fun _ => (0, 0)) 0xf0000000 [7]
def noRings : RingRun := ⟨pktringInit rawIo.kern, fun _ => false⟩
def oneRing : RingRun := (setOne.exec noRings).getD noRings

/-- The first ring gets id 1. -/
theorem ring_ids_consistent_one :
    oneRing.rings.rings 1 = some 7 ∧ oneRing.issued 1 = true ∧
      IdsConsistent RingOp.Fits oneRing := by
  have hexec : setOne.exec noRings = some oneRing := rfl
  refine ⟨by decide +kernel, by decide +kernel, ring_ids_consistent (k := rawIo.kern)
    (Run.Reaches.refl.call (i := setOne) (.inr ⟨?_, 1, _, rfl, ?_, ?_⟩) hexec)⟩
  · show freeRingid (pktringInit rawIo.kern) ≠ some maxPktringCount
    decide +kernel
  · intro u hu
    obtain rfl := mem_singleton.mp hu
    exact ⟨by decide +kernel, by decide +kernel, by decide +kernel, by decide +kernel⟩
  · unfold RoomFor
    decide +kernel

/-- **An id that is lost**: the user's ring is empty, so the call fails, and the id that it had
    chosen stays marked as used. -/
theorem ring_id_lost :
    ¬∀ (k : Kernel) (p : RingRun), Run.Reaches (fun p op p' => RingOp.exec p op = some p')
      (fun _ _ => True) ⟨pktringInit k, fun _ => false⟩ p → IdsConsistent (fun _ _ => True) p := by
  intro h
  have hcons := h rawIo.kern noRings .refl
  have hused := hcons.failing 0 0 0 0 oneEntry (fun _ => (0, 0)) 0 [7] (.err .fault) _ trivial rfl 1
    (by decide +kernel)
  cases hused

end Exokernel
