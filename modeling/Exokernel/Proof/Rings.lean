import Exokernel.Lib.Ring
import Exokernel.Kern.Rings
import Exokernel.Proof.Pins

/-!
# Packet rings — which ids lead to rings

A ring is circular, its entries are in use, and its id is marked as used: so it should be after any
sequence of calls. **The array, the marks and the lists are changed at different times**, and most
of the error exits leave them apart. This file follows the three through the calls that return
where they are meant to.

Entries are looked at one by one. A call works on the entries of one ring and on blocks that
`malloc` has just given it; nothing else that is in use changes (`Kept`), and rings have no entries
in common, so the others stay what they are.
-/
set_option autoImplicit false

namespace Exokernel

open Function Option List

/-! ## 1. Entries -/

/-- The arrays and the page tables are left alone. -/
structure SameArrays (s s' : Rings) : Prop where
  rings : s'.rings = s.rings
  ringused : s'.ringused = s.ringused
  notify : s'.notifyWhenEmpty = s.notifyWhenEmpty
  msgring : s'.msgring = s.msgring
  wild : s'.wild = s.wild
  kern : ∃ m, s'.kern = s.kern.setMem m

namespace SameArrays

variable {s s' s'' : Rings}

theorem refl (s : Rings) : SameArrays s s := ⟨rfl, rfl, rfl, rfl, rfl, s.kern.mem, rfl⟩

theorem trans (h : SameArrays s s') (h' : SameArrays s' s'') : SameArrays s s'' := by
  obtain ⟨m, hm⟩ := h.kern
  obtain ⟨m', hm'⟩ := h'.kern
  exact ⟨h'.rings.trans h.rings, h'.ringused.trans h.ringused, h'.notify.trans h.notify,
    h'.msgring.trans h.msgring, h'.wild.trans h.wild, m', by rw [hm', hm]; rfl⟩

theorem ofHeap (s : Rings) (m : Mem) (live : Nat → Bool) (ents : Nat → Ringent) :
    SameArrays s { s.setMem m with live := live, ents := ents } :=
  ⟨rfl, rfl, rfl, rfl, rfl, m, rfl⟩

end SameArrays

section
variable {kind : RingKind} {s s' : Rings} {cur : Fin nenv} {a : Nat}

theorem Rings.modEnt_modEnt (s : Rings) (a : Nat) (f g : Ringent → Ringent) :
    (s.modEnt a f).modEnt a g = s.modEnt a (g ∘ f) := by
  simp [Rings.modEnt]

/-- Some pages have fewer pins. -/
structure Looser (m m' : Mem) : Prop where
  free : m'.freeList = m.freeList
  mallocs : m'.mallocs = m.mallocs
  pins : ∀ p, (m'.pages p).pinned ≤ (m.pages p).pinned

theorem Looser.refl (m : Mem) : Looser m m := ⟨rfl, rfl, fun _ => le_rfl⟩

theorem Looser.trans {m m' m'' : Mem} (h : Looser m m') (h' : Looser m' m'') : Looser m m'' :=
  ⟨h'.free.trans h.free, h'.mallocs.trans h.mallocs, fun p => (h'.pins p).trans (h.pins p)⟩

theorem Looser.unpin (m : Mem) (p : Nat) : Looser m (ppageUnpin m p) := by
  unfold ppageUnpin Mem.modPage
  obtain ⟨_, he⟩ := m.assert_eq (decide (0 < (m.pages p).pinned))
  rw [he]
  refine ⟨rfl, rfl, fun q => ?_⟩
  dsimp only
  by_cases hq : q = p
  · subst hq
    simp
  · rw [update_of_ne hq]

theorem Looser.foldl_unpin (ps : List Nat) : ∀ (m : Mem), Looser m (ps.foldl ppageUnpin m) := by
  induction ps with
  | nil => exact fun m => .refl m
  | cons p ps ih => exact fun m => (Looser.unpin m p).trans (ih _)

theorem Looser.room {m m' : Mem} {n : Nat} {ps : List Nat} (h : Looser m m') (hr : RoomFor m n ps) :
    RoomFor m' n ps := by
  unfold RoomFor spareBut
  rw [h.free, h.mallocs]
  refine hr.trans (countP_mono_left fun p _ hp => ?_)
  rw [decide_eq_true_eq] at hp ⊢
  exact ⟨Nat.le_zero.mp ((h.pins p).trans hp.1.le), hp.2⟩

theorem ringentFree_cases (h : ringentFree kind s a = some s') :
    ∃ m, s' = (s.setMem m).drop a ∧ Looser s.kern.mem m := by
  unfold ringentFree at h
  dsimp only at h
  split at h
  · exact ⟨_, (some.inj h).symm, (Looser.foldl_unpin _ _).trans (.unpin _ _)⟩
  · cases h
  · exact ⟨_, (some.inj h).symm, .foldl_unpin _ _⟩

theorem ringentFree_owned (kind : RingKind) (h : (s.ents a).owner.isSome = true) :
    (ringentFree kind s a).isSome = true := by
  obtain ⟨o, ho⟩ := isSome_iff_exists.mp h
  unfold ringentFree
  simp [ho]

/-- The pages behind the pieces of an entry. -/
def piecePages (k : Kernel) (cur : Fin nenv) (ps : List (BitVec 32 × Nat)) : List Nat :=
  ps.map fun p => pgno (envVa2pa k cur p.1)

/-- What `setupBody` makes of an entry. -/
def Ringent.addBody (k : Kernel) (cur : Fin nenv) (ps : List (BitVec 32 × Nat)) (e : Ringent) :
    Ringent :=
  { e with body := e.body ++ ps.map fun p => (p.2, envVa2pa k cur p.1) }

theorem pa2kva_some {k : Kernel} {pa pa' : BitVec 32} (h : pa2kva k pa = some pa') : pa' = pa := by
  unfold pa2kva at h
  split at h
  · exact (some.inj h).symm
  · cases h

/-- **The loop over the pieces** adds them all and pins their pages, or frees the entry. Then a
    piece is not readable, or there are too many. -/
theorem setupBody_cases (ps : List (BitVec 32 × Nat)) : ∀ {totalLen : Nat} {s : Rings} {ok : Bool},
    setupBody kind cur a ps totalLen s = some (ok, s') →
    (ok = true ∧ s' = (s.setMem ((piecePages s.kern cur ps).foldl ppagePin s.kern.mem)).modEnt a
        (Ringent.addBody s.kern cur ps) ∧ ∀ p ∈ ps, isvaMasked readMask s.kern cur p.1 = true) ∨
      (ok = false ∧ (∃ m e, s' = ((s.setMem m).modEnt a fun _ => e).drop a) ∧
        ((∃ p ∈ ps, isvaMasked readMask s.kern cur p.1 = false) ∨
          ∃ n ≤ (s.ents a).body.length + ps.length, ∃ t, tooBig n t kind = true)) := by
  induction ps with
  | nil =>
    intro totalLen s ok h
    cases h
    refine .inl ⟨rfl, ?_, fun p hp => by simp at hp⟩
    simp [piecePages, Ringent.addBody, Rings.modEnt, Rings.setMem, Kernel.setMem]
  | cons p ps ih =>
    intro totalLen s ok h
    obtain ⟨addr, slen⟩ := p
    unfold setupBody at h
    split at h
    · rename_i hread
      obtain ⟨s₁, hfree, hs₁⟩ := map_eq_some_iff.mp h
      cases hs₁
      obtain ⟨m, rfl, -⟩ := ringentFree_cases hfree
      refine .inr ⟨rfl, ⟨m, s.ents a, ?_⟩, .inl ⟨_, mem_cons_self .., by simpa using hread⟩⟩
      simp [Rings.modEnt, Rings.setMem]
    rename_i hread
    obtain ⟨pa, hpa, h⟩ := bind_eq_some_iff.mp h
    obtain rfl := pa2kva_some hpa
    dsimp only at h
    obtain ⟨s₁, hs₁⟩ : ∃ s₁ : Rings, s₁ = (s.setMem
        (ppagePin s.kern.mem (pgno (envVa2pa s.kern cur addr)))).modEnt a
          (Ringent.addBody s.kern cur [(addr, slen)]) := ⟨_, rfl⟩
    have hlen : (s₁.ents a).body.length = (s.ents a).body.length + 1 := by
      rw [hs₁]
      simp [Rings.modEnt, Rings.setMem, Ringent.addBody]
    have hread₁ : ∀ va, isvaMasked readMask s₁.kern cur va = isvaMasked readMask s.kern cur va := by
      rw [hs₁]
      exact fun _ => rfl
    have h₁ : (if tooBig (s₁.ents a).body.length (totalLen + slen) kind then
        (ringentFree kind s₁ a).map (false, ·)
        else setupBody kind cur a ps (totalLen + slen) s₁) = some (ok, s') := by
      rw [hs₁]
      exact h
    split at h₁
    · rename_i hbig
      obtain ⟨s₂, hfree, hs₂⟩ := map_eq_some_iff.mp h₁
      cases hs₂
      obtain ⟨m, rfl, -⟩ := ringentFree_cases hfree
      refine .inr ⟨rfl, ⟨m, s₁.ents a, ?_⟩, .inr ⟨_, ?_, _, hbig⟩⟩
      · rw [hs₁]
        simp [Rings.modEnt, Rings.setMem, Rings.drop, Kernel.setMem]
      · rw [hlen, length_cons]
        omega
    · rcases ih h₁ with ⟨rfl, hs', hps⟩ | ⟨rfl, ⟨m, e, hs'⟩, hbad⟩
      · refine .inl ⟨rfl, ?_, fun p hp => ?_⟩
        · rw [hs', hs₁]
          simp [Rings.modEnt, Rings.setMem, Ringent.addBody, piecePages, Kernel.setMem]
          exact ⟨rfl, rfl⟩
        rcases mem_cons.mp hp with rfl | hp
        · simpa using hread
        · rw [← hread₁]
          exact hps p hp
      · refine .inr ⟨rfl, ⟨m, e, ?_⟩, ?_⟩
        · rw [hs', hs₁]
          simp [Rings.modEnt, Rings.setMem, Rings.drop, Kernel.setMem]
        rw [hlen] at hbad
        rcases hbad with ⟨p, hp, hbad⟩ | ⟨n, hn, t, hbad⟩
        · exact .inl ⟨p, mem_cons_of_mem _ hp, by rw [← hread₁]; exact hbad⟩
        refine .inr ⟨n, ?_, t, hbad⟩
        rw [length_cons]
        omega

/-- The pages that an entry of the user's names. -/
def entPages (k : Kernel) (cur : Fin nenv) (u : UserEnt) (kind : RingKind) : List Nat :=
  pgno (envVa2pa k cur u.owner) :: piecePages k cur (entPieces u kind)

/-- The entry that is made for it. -/
def UserEnt.kernEnt (u : UserEnt) (k : Kernel) (cur : Fin nenv) (frame : BitVec 32) (next : Nat)
    (kind : RingKind) : Ringent where
  next := next
  owner := some (envVa2pa k cur u.owner)
  appaddr := frame
  body := (entPieces u kind).map fun p => (p.2, envVa2pa k cur p.1)

/-- What `pktringent_setup` requires of a user's entry. -/
structure PktEntOk (k : Kernel) (cur : Fin nenv) (u : UserEnt) : Prop where
  aligned : u.owner.umod 4 = 0
  owner : isvaMasked writeMask k cur u.owner = true
  readable : ∀ p ∈ entPieces u .pkt, isvaMasked readMask k cur p.1 = true
  few : (entPieces u .pkt).length < aeRecvMaxscatter

theorem PktEntOk.setMem {k : Kernel} {u : UserEnt} (h : PktEntOk k cur u) (m : Mem) :
    PktEntOk (k.setMem m) cur u :=
  ⟨h.aligned, h.owner, h.readable, h.few⟩

/-- **`pktringent_setup` and `msgringent_setup`.** Without memory nothing changes. With memory, a
    block that was not in use becomes an entry that names the pages of the user's; or it is freed
    again. -/
theorem ringentSetup_cases {u : UserEnt} {frame : BitVec 32} {r : Option Nat}
    (h : ringentSetup kind s cur u frame a = some (r, s')) :
    (∃ m, kmalloc s.kern.mem = (false, m) ∧ r = none ∧ s' = s.setMem m) ∨
      ∃ m, kmalloc s.kern.mem = (true, m) ∧ s.live a = false ∧
        ((r = some a ∧ u.owner.umod 4 = 0 ∧ isvaMasked writeMask s.kern cur u.owner = true ∧
            s' = ((s.setMem ((entPages s.kern cur u kind).foldl ppagePin m)).give a).modEnt a
              fun e => u.kernEnt s.kern cur frame e.next kind) ∨
          (r = none ∧ (∃ m e, s' = ((s.setMem m).modEnt a fun _ => e).drop a) ∧
            (kind = .pkt → ¬PktEntOk s.kern cur u))) := by
  unfold ringentSetup at h
  cases hm : kmalloc s.kern.mem with
  | mk ok m =>
    rw [hm] at h
    cases ok with
    | false =>
      cases h
      exact .inl ⟨m, rfl, rfl, rfl⟩
    | true =>
      dsimp only at h
      split at h
      · cases h
      rename_i hlive
      refine .inr ⟨m, rfl, by simpa using hlive, ?_⟩
      -- a half-made entry is given back
      have hfreed : ∀ {s₁ s₂ : Rings} {m₁ : Mem} {e : Ringent},
          s₁ = ((s.setMem m₁).give a).modEnt a (fun _ => e) → ringentFree kind s₁ a = some s₂ →
          ∃ m e, s₂ = ((s.setMem m).modEnt a fun _ => e).drop a := by
        intro s₁ s₂ m₁ e hs₁ hfree
        obtain ⟨m₂, rfl, -⟩ := ringentFree_cases hfree
        refine ⟨m₂, e, ?_⟩
        rw [hs₁]
        simp [Rings.modEnt, Rings.setMem, Rings.give, Rings.drop, Kernel.setMem]
      split at h
      · rename_i howner
        obtain ⟨s₂, hfree, hs₂⟩ := map_eq_some_iff.mp h
        cases hs₂
        refine .inr ⟨rfl, hfreed rfl hfree, fun _ hok => ?_⟩
        rcases howner with howner | howner
        · exact howner hok.aligned
        have hw : isvaMasked writeMask s.kern cur u.owner = false := (Bool.not_eq_true' _).mp howner
        rw [hok.owner] at hw
        cases hw
      · rename_i howner
        rw [not_or, not_not] at howner
        have hw : isvaMasked writeMask s.kern cur u.owner = true := by
          have hne := howner.2
          rw [Bool.not_eq_true'] at hne
          exact Bool.eq_true_of_not_eq_false hne
        obtain ⟨pa, hpa, h⟩ := bind_eq_some_iff.mp h
        obtain rfl := pa2kva_some hpa
        rw [Rings.modEnt_modEnt] at h
        obtain ⟨s₁, hs₁⟩ : ∃ s₁ : Rings, s₁ =
            ((s.setMem (ppagePin m (pgno (envVa2pa s.kern cur u.owner)))).give a).modEnt a
              fun e => ⟨e.next, some (envVa2pa s.kern cur u.owner), frame, []⟩ := ⟨_, rfl⟩
        have h₁ : (if kind = .msg ∧ 1 < u.n then (ringentFree kind s₁ a).map (none, ·)
            else (setupBody kind cur a (entPieces u kind) 0 s₁).map fun x =>
              (if x.1 then some a else none, x.2)) = some (r, s') := by
          rw [hs₁]
          exact h
        split at h₁
        · rename_i hmsg
          obtain ⟨s₂, hfree, hs₂⟩ := map_eq_some_iff.mp h₁
          cases hs₂
          refine .inr ⟨rfl, hfreed hs₁ hfree, fun hkind => ?_⟩
          rw [hmsg.1] at hkind
          cases hkind
        obtain ⟨⟨ok, s₂⟩, hbody, hs₂⟩ := map_eq_some_iff.mp h₁
        cases hs₂
        rcases setupBody_cases _ hbody with ⟨rfl, hs₂, -⟩ | ⟨rfl, ⟨m₂, e, hs₂⟩, hbad⟩
        · refine .inl ⟨rfl, howner.1, hw, ?_⟩
          rw [hs₂, hs₁]
          simp [Rings.modEnt, Rings.setMem, Rings.give, Kernel.setMem, UserEnt.kernEnt,
            Ringent.addBody, entPages]
          exact ⟨rfl, rfl⟩
        refine .inr ⟨rfl, ⟨m₂, e, ?_⟩, fun hkind hok => ?_⟩
        · rw [hs₂, hs₁]
          simp [Rings.modEnt, Rings.setMem, Rings.give, Rings.drop, Kernel.setMem]
        subst hkind
        have hempty : (s₁.ents a).body = [] := by
          rw [hs₁]
          simp [Rings.modEnt]
        rcases hbad with ⟨p, hp, hbad⟩ | ⟨n, hn, t, hbad⟩
        · have hread := hok.readable p hp
          rw [hs₁] at hbad
          rw [show isvaMasked readMask s.kern cur p.1 = false from hbad] at hread
          cases hread
        · rw [hempty, length_nil, Nat.zero_add] at hn
          have hfew := hok.few
          have hle : aeRecvMaxscatter ≤ n := of_decide_eq_true hbad
          omega

end

/-! ## 2. Rings -/

/-- A pointer leads to a ring of entries in use. -/
structure RingAt (s : Rings) (o : Option Nat) (l : List Nat) : Prop where
  head : o = l.head?
  circ : Circ (fun a => (s.ents a).next) l
  live : ∀ a ∈ l, s.live a = true
  owned : ∀ a ∈ l, (s.ents a).owner.isSome = true

/-- What is in use and not in `l` stays as it is. -/
def Kept (s s' : Rings) (l : List Nat) : Prop :=
  ∀ a ∉ l, s.live a = true → s'.live a = true ∧ s'.ents a = s.ents a

section
variable {kind : RingKind} {s s' s'' : Rings} {o : Option Nat} {l l' : List Nat}

theorem Kept.refl (s : Rings) (l : List Nat) : Kept s s l := fun _ _ ha => ⟨ha, rfl⟩

theorem RingAt.nil (s : Rings) : RingAt s none [] :=
  ⟨rfl, Circ.nil, fun _ ha => by simp at ha, fun _ ha => by simp at ha⟩

theorem RingAt.kept (h : RingAt s o l') (hk : Kept s s' l) (hd : ∀ a ∈ l', a ∉ l) :
    RingAt s' o l' where
  head := h.head
  circ := h.circ.congr fun a ha => by rw [(hk a (hd a ha) (h.live a ha)).2]
  live a ha := (hk a (hd a ha) (h.live a ha)).1
  owned a ha := by
    rw [(hk a (hd a ha) (h.live a ha)).2]
    exact h.owned a ha

theorem Rings.setNext_ents (s : Rings) (a b c : Nat) :
    (s.setNext a b).ents c = { s.ents c with next := update (fun c => (s.ents c).next) a b c } := by
  by_cases hc : c = a
  · subst hc
    simp [Rings.setNext, Rings.modEnt]
  · simp [Rings.setNext, Rings.modEnt, hc]

theorem Rings.setNext_next (s : Rings) (a b : Nat) :
    (fun c => ((s.setNext a b).ents c).next) = update (fun c => (s.ents c).next) a b := by
  funext c
  rw [setNext_ents]

theorem Rings.setNext_owner (s : Rings) (a b c : Nat) :
    ((s.setNext a b).ents c).owner = (s.ents c).owner := by
  rw [setNext_ents]

/-- The ring `l` has been freed. -/
structure Freed (s s' : Rings) (l : List Nat) : Prop where
  arrays : SameArrays s s'
  kept : Kept s s' l
  gone : ∀ a ∈ l, s'.live a = false
  fewer : ∀ a, s'.live a = true → s.live a = true
  looser : Looser s.kern.mem s'.kern.mem

theorem Freed.nil (s : Rings) : Freed s s [] :=
  ⟨.refl s, .refl s [], fun _ ha => by simp at ha, fun _ ha => ha, .refl _⟩

theorem RingAt.freeNext {head c : Nat} {rest : List Nat} {m : Mem}
    (h : RingAt s (some head) (head :: c :: rest)) :
    RingAt (((s.setNext head (s.ents c).next).setMem m).drop c) (some head) (head :: rest) := by
  obtain ⟨hh, hc, hrest⟩ : head ≠ c ∧ head ∉ rest ∧ c ∉ rest := by
    have hnd := h.circ.1
    simp only [nodup_cons, mem_cons, not_or] at hnd
    exact ⟨hnd.1.1, hnd.1.2, hnd.2.1⟩
  have hne : ∀ a ∈ head :: rest, a ≠ c := by
    intro a ha
    rcases mem_cons.mp ha with rfl | ha
    · exact hh
    · rintro rfl
      exact hrest ha
  have hsub : ∀ a ∈ head :: rest, a ∈ head :: c :: rest := by
    intro a ha
    rcases mem_cons.mp ha with rfl | ha
    · exact mem_cons_self ..
    · exact mem_cons_of_mem _ (mem_cons_of_mem _ ha)
  refine ⟨rfl, ?_, fun a ha => ?_, fun a ha => ?_⟩
  · show Circ (fun a => ((s.setNext head (s.ents c).next).ents a).next) (head :: rest)
    rw [Rings.setNext_next]
    exact h.circ.removeNext
  · show update s.live c false a = true
    rw [update_of_ne (hne a ha)]
    exact h.live a (hsub a ha)
  show ((s.setNext head (s.ents c).next).ents a).owner.isSome = true
  rw [Rings.setNext_owner]
  exact h.owned a (hsub a ha)

theorem Freed.cons {s₁ : Rings} {c : Nat} (harr : SameArrays s s₁)
    (hlive : s₁.live = update s.live c false) (hmem : Looser s.kern.mem s₁.kern.mem)
    (hents : ∀ a ∉ l, s₁.ents a = s.ents a) (hl : ∀ a, a ∈ l ↔ a = c ∨ a ∈ l')
    (hf : Freed s₁ s' l') : Freed s s' l where
  arrays := harr.trans hf.arrays
  kept a ha hla := by
    obtain ⟨hac, ha'⟩ := not_or.mp ((hl a).not.mp ha)
    obtain ⟨hlive', he⟩ := hf.kept a ha' (by rwa [hlive, update_of_ne hac])
    exact ⟨hlive', he.trans (hents a ha)⟩
  gone a ha := by
    rcases (hl a).mp ha with rfl | ha
    · refine Bool.eq_false_of_not_eq_true fun hla => ?_
      simpa [hlive] using hf.fewer a hla
    · exact hf.gone a ha
  fewer a hla := by
    have hl₁ := hf.fewer a hla
    rw [hlive] at hl₁
    by_cases hac : a = c
    · simp [hac] at hl₁
    · rwa [update_of_ne hac] at hl₁
  looser := hmem.trans hf.looser

theorem ringFree_none (n : Nat) (s : Rings) : ringFree kind n s none = some s := by
  cases n <;> rfl

/-- **`pktring_free` and `msgring_free`** free the entries of a ring, and no others. -/
theorem ringFree_spec (n : Nat) : ∀ {s : Rings} {o : Option Nat} {l : List Nat}, RingAt s o l →
    (l.length ≤ n → (ringFree kind n s o).isSome = true) ∧
      ∀ s', ringFree kind n s o = some s' → Freed s s' l := by
  induction n with
  | zero =>
    intro s o l h
    cases l with
    | nil =>
      obtain rfl : o = none := h.head
      exact ⟨fun _ => rfl, fun s' hs' => some.inj hs' ▸ .nil s⟩
    | cons head l =>
      obtain rfl : o = some head := h.head
      exact ⟨fun hlen => by simp at hlen, fun s' hs' => nomatch hs'⟩
  | succ n ih =>
    intro s o l h
    cases l with
    | nil =>
      obtain rfl : o = none := h.head
      exact ⟨fun _ => rfl, fun s' hs' => some.inj hs' ▸ .nil s⟩
    | cons head l =>
      obtain rfl : o = some head := h.head
      have hhead : s.ent? head = some (s.ents head) := by
        rw [Rings.ent?, if_pos (h.live head (mem_cons_self ..))]
      have hnext : (s.ents head).next ∈ head :: l := h.circ.next_mem (mem_cons_self ..)
      have hktmp : s.ent? (s.ents head).next = some (s.ents (s.ents head).next) := by
        rw [Rings.ent?, if_pos (h.live _ hnext)]
      unfold ringFree
      rw [hhead, bind_some]
      dsimp only
      rw [hktmp, bind_some]
      -- the entry behind the first, `c`
      obtain ⟨c, hc⟩ : ∃ c, c = (s.ents head).next := ⟨_, rfl⟩
      rw [← hc] at hnext ⊢
      have hown : ((s.setNext head (s.ents c).next).ents c).owner.isSome = true := by
        rw [Rings.setNext_owner]
        exact h.owned c hnext
      obtain ⟨s₁, hs₁⟩ := isSome_iff_exists.mp (ringentFree_owned kind hown)
      obtain ⟨m, hm, hloose⟩ := ringentFree_cases hs₁
      rw [hs₁, bind_some]
      have harr : SameArrays s s₁ := by
        rw [hm]
        exact .ofHeap s m _ _
      have hmem : Looser s.kern.mem s₁.kern.mem := by
        rw [hm]
        exact hloose
      have hlive : s₁.live = update s.live c false := by
        rw [hm]
        rfl
      have hents : ∀ a, a ≠ head → s₁.ents a = s.ents a := by
        intro a ha
        rw [hm]
        exact update_of_ne ha _ _
      cases l with
      | nil =>
        obtain rfl : c = head := by simpa using hnext
        rw [if_pos hc, ringFree_none]
        refine ⟨fun _ => rfl, fun s' hs' => ?_⟩
        cases hs'
        exact .cons harr hlive hmem (fun a ha => hents a (by simpa using ha)) (by simp) (.nil s₁)
      | cons c' rest =>
        obtain rfl : c = c' := hc.trans h.circ.next_eq
        have hring : RingAt s₁ (some head) (head :: rest) := by
          rw [hm]
          exact h.freeNext
        have hne : ¬c = (s.ents c).next := by
          intro hself
          have hrot : Circ (fun a => (s.ents a).next) (c :: (rest ++ [head])) :=
            Circ.rotate (l := [head]) h.circ
          have := hrot.eq_singleton hself.symm
          simp at this
        rw [if_neg hne]
        obtain ⟨hsome, hfreed⟩ := ih hring
        refine ⟨fun hlen => hsome (by simpa using hlen), fun s' hs' => ?_⟩
        refine .cons harr hlive hmem (fun a ha => hents a fun hah => ha ?_) ?_ (hfreed s' hs')
        · rw [hah]
          exact mem_cons_self ..
        · grind

end

/-! ## 3. Building a ring -/

/-- The user's ring, as the kernel reads it from entry `utmp` on until it comes back to `head`. -/
def readRing (k : Kernel) (cur : Fin nenv) (ram : Ram) (junk : Nat → BitVec 32 × BitVec 32)
    (head : BitVec 32) : Nat → BitVec 32 → Option (List UserEnt)
  | 0, _ => none
  | n + 1, utmp =>
    if utmp = 0 ∨ !copyinOk k cur utmp sizeofEnt then none
    else
      let u := ldEnt ram k cur junk utmp
      if u.next = head then some [u] else (readRing k cur ram junk head n u.next).map (u :: ·)

/-- What the loop of `sys_pktring_setring` has made so far: nothing, or a ring with its last
    entry. -/
def MadeAt (s : Rings) (l : List Nat) : Option (Nat × Nat) → Prop
  | none => l = []
  | some (ring, kprev) => RingAt s (some ring) l ∧ ∃ t, l = t ++ [kprev]

/-- The pages of the entry that is made for `u`. -/
def UserEnt.pages (u : UserEnt) (k : Kernel) (cur : Fin nenv) (kind : RingKind) : List Nat :=
  piecePages k cur (entPieces u kind) ++ [pgno (envVa2pa k cur u.owner)]

theorem UserEnt.kernEnt_pages (u : UserEnt) (k : Kernel) (cur : Fin nenv) (frame : BitVec 32)
    (next : Nat) (kind : RingKind) : (u.kernEnt k cur frame next kind).pages = u.pages k cur kind := by
  simp [UserEnt.kernEnt, Ringent.pages, Ringent.dataPages, UserEnt.pages, piecePages]

/-- To the ring `l`, the entries `l'` have been added for the user's entries `us`. -/
structure Built (kind : RingKind) (cur : Fin nenv) (s s' : Rings) (ring : Option Nat)
    (l l' : List Nat) (us : List UserEnt) : Prop where
  isRing : RingAt s' ring (l ++ l')
  found : ring ≠ none
  arrays : SameArrays s s'
  kept : Kept s s' l
  fresh : ∀ a ∈ l', s.live a = false
  pagesKept : ∀ a, s.live a = true → (s'.ents a).pages = (s.ents a).pages
  pages : l'.map (fun a => (s'.ents a).pages) = us.map fun u => u.pages s.kern cur kind
  owners : ∀ u ∈ us, isvaMasked writeMask s.kern cur u.owner = true

section
variable {kind : RingKind} {cur : Fin nenv} {s s' : Rings} {l : List Nat}

theorem Rings.setNext_pages (s : Rings) (a b c : Nat) :
    ((s.setNext a b).ents c).pages = (s.ents c).pages := by
  rw [setNext_ents]
  rfl

variable {a k : Nat} {u : UserEnt}

theorem MadeAt.link {made : Option (Nat × Nat)} (h : MadeAt s l made)
    (hl : ∀ c ∈ l, s.live c = true) (ha : a ∉ l) (hlive : s.live a = true)
    (hown : (s.ents a).owner.isSome = true) :
    MadeAt (linkNew s a made).2 (l ++ [a]) (some ((linkNew s a made).1, a)) ∧
      (linkNew s a made).2.live = s.live ∧ SameArrays s (linkNew s a made).2 ∧
      (∀ c, ((linkNew s a made).2.ents c).pages = (s.ents c).pages) ∧
      ∀ c ∉ l, c ≠ a → (linkNew s a made).2.ents c = s.ents c := by
  cases made with
  | none =>
    obtain rfl : l = [] := h
    refine ⟨⟨⟨rfl, ?_, fun c hc => ?_, fun c hc => ?_⟩, [], rfl⟩, rfl, .ofHeap s s.kern.mem _ _,
      s.setNext_pages a a, fun c _ hca => update_of_ne hca _ _⟩
    · show Circ (fun c => ((s.setNext a a).ents c).next) [a]
      rw [Rings.setNext_next]
      exact Circ.singleton _ a
    · obtain rfl : c = a := by simpa using hc
      exact hlive
    obtain rfl : c = a := by simpa using hc
    show ((s.setNext c c).ents c).owner.isSome = true
    rw [Rings.setNext_owner]
    exact hown
  | some rk =>
    obtain ⟨ring, kprev⟩ := rk
    obtain ⟨hring, t, rfl⟩ := h
    have hmem : kprev ∈ t ++ [kprev] := mem_append_right _ (mem_singleton_self _)
    refine ⟨⟨⟨?_, ?_, fun c hc => ?_, fun c hc => ?_⟩, _, rfl⟩, rfl, .ofHeap s s.kern.mem _ _,
      fun c => ?_, fun c hc hca => ?_⟩
    · show some ring = _
      rw [hring.head]
      cases t with
      | nil => rfl
      | cons b t => rfl
    · show Circ (fun c => (((s.setNext a (s.ents kprev).next).setNext kprev a).ents c).next) _
      rw [Rings.setNext_next, Rings.setNext_next]
      exact hring.circ.append ha
    · rcases mem_append.mp hc with hc | hc
      · exact hl c hc
      · obtain rfl : c = a := by simpa using hc
        exact hlive
    · show (((s.setNext a (s.ents kprev).next).setNext kprev a).ents c).owner.isSome = true
      rw [Rings.setNext_owner, Rings.setNext_owner]
      rcases mem_append.mp hc with hc | hc
      · exact hring.owned c hc
      · obtain rfl : c = a := by simpa using hc
        exact hown
    · show (((s.setNext a (s.ents kprev).next).setNext kprev a).ents c).pages = _
      rw [Rings.setNext_pages, Rings.setNext_pages]
    · have hck : c ≠ kprev := fun h => hc (h ▸ hmem)
      show ((s.setNext a (s.ents kprev).next).setNext kprev a).ents c = s.ents c
      unfold Rings.setNext Rings.modEnt
      simp [hck, hca]

/-- Entry `k` has been made for `u` and linked into the ring `l`. -/
structure Added (kind : RingKind) (cur : Fin nenv) (s s' : Rings) (l : List Nat) (k : Nat)
    (u : UserEnt) : Prop where
  arrays : SameArrays s s'
  dead : s.live k = false
  live : s'.live = update s.live k true
  kept : Kept s s' l
  pagesKept : ∀ a, s.live a = true → (s'.ents a).pages = (s.ents a).pages
  pages : (s'.ents k).pages = u.pages s.kern cur kind
  owner : isvaMasked writeMask s.kern cur u.owner = true

/-- Entry `k` has been made for `u`. -/
structure SetUp (kind : RingKind) (cur : Fin nenv) (s s' : Rings) (k : Nat) (u : UserEnt) : Prop where
  arrays : SameArrays s s'
  dead : s.live k = false
  live : s'.live = update s.live k true
  others : ∀ a, a ≠ k → s'.ents a = s.ents a
  pages : (s'.ents k).pages = u.pages s.kern cur kind
  owned : (s'.ents k).owner.isSome = true
  owner : isvaMasked writeMask s.kern cur u.owner = true

theorem ringentSetup_some {frame : BitVec 32}
    (h : ringentSetup kind s cur u frame a = some (some k, s')) :
    k = a ∧ SetUp kind cur s s' k u := by
  rcases ringentSetup_cases h with ⟨m, -, hr, -⟩ | ⟨m, -, hdead, ⟨hr, -, hw, hs'⟩ | ⟨hr, -⟩⟩
  · cases hr
  · obtain rfl : k = a := some.inj hr
    have hk : s'.ents k = u.kernEnt s.kern cur frame (s.ents k).next kind := by
      rw [hs']
      exact update_self ..
    refine ⟨rfl, ?_, hdead, ?_, fun c hc => ?_, ?_, ?_, hw⟩
    · rw [hs']
      exact .ofHeap s _ _ _
    · rw [hs']
      rfl
    · rw [hs']
      exact update_of_ne hc _ _
    · rw [hk, UserEnt.kernEnt_pages]
    · rw [hk]
      rfl
  · cases hr

theorem SetUp.ne (h : SetUp kind cur s s' k u) (ha : s.live a = true) :
    a ≠ k := by
  rintro rfl
  rw [h.dead] at ha
  cases ha

theorem SetUp.kept (h : SetUp kind cur s s' k u) : Kept s s' [] := by
  intro a _ ha
  rw [h.live, update_of_ne (h.ne ha)]
  exact ⟨ha, h.others a (h.ne ha)⟩

theorem MadeAt.add {made : Option (Nat × Nat)} {s₁ : Rings}
    (h : MadeAt s l made) (hl : ∀ c ∈ l, s.live c = true) (hs : SetUp kind cur s s₁ k u) :
    MadeAt (linkNew s₁ k made).2 (l ++ [k]) (some ((linkNew s₁ k made).1, k)) ∧
      Added kind cur s (linkNew s₁ k made).2 l k u := by
  have hmade : MadeAt s₁ l made := by
    cases made with
    | none => exact h
    | some rk => exact ⟨h.1.kept hs.kept fun _ _ => not_mem_nil, h.2⟩
  have hkl : k ∉ l := fun hmem => hs.ne (hl k hmem) rfl
  obtain ⟨hmade', hlive', harr', hpages', hents'⟩ := hmade.link
    (fun c hc => (hs.kept c not_mem_nil (hl c hc)).1) hkl
    (by rw [hs.live, update_self]) hs.owned
  refine ⟨hmade', hs.arrays.trans harr', hs.dead, hlive'.trans hs.live, fun c hcl hc => ?_,
    fun c hc => ?_, ?_, hs.owner⟩
  · rw [hlive']
    exact ⟨(hs.kept c not_mem_nil hc).1, (hents' c hcl (hs.ne hc)).trans (hs.others c (hs.ne hc))⟩
  · rw [hpages', hs.others c (hs.ne hc)]
  · rw [hpages', hs.pages]

/-- The pages behind a user's entry do not depend on the state of memory. -/
theorem SameArrays.pages (h : SameArrays s s') (u : UserEnt) :
    u.pages s'.kern cur kind = u.pages s.kern cur kind := by
  obtain ⟨m, hm⟩ := h.kern
  rw [hm]
  rfl

theorem Added.built {ring : Nat} (h : Added kind cur s s' l k u)
    (hmade : MadeAt s' (l ++ [k]) (some (ring, k))) :
    Built kind cur s s' (some ring) l [k] [u] where
  isRing := hmade.1
  found h := nomatch h
  arrays := h.arrays
  kept := h.kept
  fresh a ha := by
    obtain rfl : a = k := by simpa using ha
    exact h.dead
  pagesKept := h.pagesKept
  pages := by rw [map_singleton, map_singleton, h.pages]
  owners v hv := by
    obtain rfl : v = u := by simpa using hv
    exact h.owner

theorem Added.cons {us : List UserEnt} {l' : List Nat} {ring : Option Nat}
    {s₁ : Rings} (h : Added kind cur s s₁ l k u)
    (hb : Built kind cur s₁ s' ring (l ++ [k]) l' us) :
    Built kind cur s s' ring l (k :: l') (u :: us) where
  isRing := by
    have hring := hb.isRing
    rwa [append_assoc] at hring
  found := hb.found
  arrays := h.arrays.trans hb.arrays
  kept c hc hlive := by
    have hck : c ≠ k := by
      rintro rfl
      rw [h.dead] at hlive
      cases hlive
    obtain ⟨h₁, h₂⟩ := h.kept c hc hlive
    obtain ⟨h₃, h₄⟩ := hb.kept c (by simp [hc, hck]) h₁
    exact ⟨h₃, h₄.trans h₂⟩
  fresh c hc := by
    rcases mem_cons.mp hc with rfl | hc
    · exact h.dead
    cases hlive : s.live c with
    | false => rfl
    | true =>
      have hd := hb.fresh c hc
      rw [h.live] at hd
      by_cases hck : c = k
      · rw [hck, update_self] at hd
        cases hd
      · rw [update_of_ne hck, hlive] at hd
        cases hd
  pagesKept c hc := by
    have hlive₁ : s₁.live c = true := by
      rw [h.live]
      by_cases hck : c = k
      · rw [hck, update_self]
      · rwa [update_of_ne hck]
    exact (hb.pagesKept c hlive₁).trans (h.pagesKept c hc)
  pages := by
    have hlive₁ : s₁.live k = true := by rw [h.live, update_self]
    rw [map_cons, map_cons, hb.pages, hb.pagesKept k hlive₁, h.pages]
    simp only [h.arrays.pages]
  owners v hv := by
    rcases mem_cons.mp hv with rfl | hv
    · exact h.owner
    have hw := hb.owners v hv
    obtain ⟨m, hm⟩ := h.arrays.kern
    rw [hm] at hw
    exact hw

variable {ram : Ram} {junk : Nat → BitVec 32 × BitVec 32} {frame head : BitVec 32}

theorem readRing_setMem (k : Kernel) (m : Mem) (n : Nat) : ∀ (utmp : BitVec 32),
    readRing (k.setMem m) cur ram junk head n utmp = readRing k cur ram junk head n utmp := by
  induction n with
  | zero => exact fun _ => rfl
  | succ n ih =>
    intro utmp
    simp only [readRing, ih]
    rfl

/-- **The loop of `sys_pktring_setring` and `sys_msgring_setring`**, if it comes back to the head. -/
theorem setringLoop_done (addrs : List Nat) : ∀ {utmp : BitVec 32} {made : Option (Nat × Nat)}
    {s : Rings} {l : List Nat} {ring : Option Nat} {s' : Rings}, MadeAt s l made →
    (∀ c ∈ l, s.live c = true) →
    setringLoop kind cur ram junk frame head addrs utmp made s = some (.done, ring, s') →
    ∃ l' us, readRing s.kern cur ram junk head addrs.length utmp = some us ∧
      Built kind cur s s' ring l l' us := by
  induction addrs with
  | nil =>
    intro utmp made s l ring s' _ _ h
    cases h
  | cons a addrs ih =>
    intro utmp made s l ring s' hmade hl h
    unfold setringLoop at h
    split at h
    · cases h
    rename_i h0
    split at h
    · cases h
    rename_i hcopy
    dsimp only at h
    obtain ⟨u, hu⟩ : ∃ u, u = ldEnt ram s.kern cur junk utmp := ⟨_, rfl⟩
    have hread : readRing s.kern cur ram junk head (a :: addrs).length utmp =
        if u.next = head then some [u]
        else (readRing s.kern cur ram junk head addrs.length u.next).map (u :: ·) := by
      rw [length_cons, readRing, if_neg (not_or.mpr ⟨h0, hcopy⟩), hu]
    rw [← hu] at h
    obtain ⟨⟨ktmp, s₁⟩, hsetup, hrest⟩ := bind_eq_some_iff.mp h
    cases ktmp with
    | none => cases hrest
    | some k =>
      obtain ⟨rfl, hset⟩ := ringentSetup_some hsetup
      obtain ⟨hmade₁, hadd⟩ := hmade.add hl hset
      dsimp only at hrest
      split at hrest
      · rename_i hnext
        obtain ⟨hring, rfl⟩ := Prod.mk.inj (Prod.mk.inj (some.inj hrest)).2
        refine ⟨[k], [u], by rw [hread, if_pos hnext], ?_⟩
        rw [← hring]
        exact hadd.built hmade₁
      · rename_i hnext
        have hl₁ : ∀ c ∈ l ++ [k], (linkNew s₁ k made).2.live c = true := hmade₁.1.live
        obtain ⟨l', us, hus, hb⟩ := ih hmade₁ hl₁ hrest
        obtain ⟨m, hm⟩ := hadd.arrays.kern
        rw [hm, readRing_setMem] at hus
        exact ⟨k :: l', u :: us, by rw [hread, if_neg hnext, hus]; rfl, hadd.cons hb⟩

/-- **A ring that the kernel can read, of entries it takes, is taken whole** if there is memory for
    its entries. -/
theorem setringLoop_complete (addrs : List Nat) : ∀ {n : Nat} {utmp : BitVec 32}
    {made : Option (Nat × Nat)} {s : Rings} {us : List UserEnt} {res : SetRes} {ring : Option Nat}
    {s' : Rings}, readRing s.kern cur ram junk head n utmp = some us →
    (∀ u ∈ us, PktEntOk s.kern cur u) →
    RoomFor s.kern.mem us.length (us.flatMap fun u => entPages s.kern cur u .pkt) →
    setringLoop .pkt cur ram junk frame head addrs utmp made s = some (res, ring, s') →
    res = .done := by
  induction addrs with
  | nil =>
    intro n utmp made s us res ring s' _ _ _ h
    cases h
  | cons a addrs ih =>
    intro n utmp made s us res ring s' hread hok hroom h
    cases n with
    | zero => cases hread
    | succ n =>
      unfold readRing at hread
      split at hread
      · cases hread
      rename_i hutmp
      rw [not_or] at hutmp
      unfold setringLoop at h
      rw [if_neg hutmp.1, if_neg hutmp.2] at h
      dsimp only at h hread
      obtain ⟨u, hu⟩ : ∃ u, u = ldEnt ram s.kern cur junk utmp := ⟨_, rfl⟩
      rw [← hu] at h hread
      obtain ⟨rest, rfl⟩ : ∃ rest, us = u :: rest := by
        split at hread
        · exact ⟨[], (some.inj hread).symm⟩
        · obtain ⟨rest, -, hrest⟩ := map_eq_some_iff.mp hread
          exact ⟨rest, hrest.symm⟩
      obtain ⟨m, hm, -, hroom₁⟩ := hroom.kmalloc
      obtain ⟨⟨ktmp, s₁⟩, hsetup, hloop⟩ := bind_eq_some_iff.mp h
      have hmade : ktmp = some a ∧
          s₁.kern = s.kern.setMem ((entPages s.kern cur u .pkt).foldl ppagePin m) := by
        rcases ringentSetup_cases hsetup with ⟨m', hm', -⟩ | ⟨m', hm', -, ⟨hr, -, -, hs₁⟩ | ⟨-, -, hbad⟩⟩
        · rw [hm] at hm'
          exact nomatch (Prod.mk.inj hm').1
        · rw [hm] at hm'
          rw [hs₁, (Prod.mk.inj hm').2]
          exact ⟨hr, rfl⟩
        · exact absurd (hok u (mem_cons_self ..)) (hbad rfl)
      obtain ⟨rfl, hkern₁⟩ := hmade
      dsimp only at hloop
      split at hloop
      · exact (Prod.mk.inj (some.inj hloop)).1.symm
      rename_i hnext
      rw [if_neg hnext] at hread
      obtain ⟨rest', hrest, hcons⟩ := map_eq_some_iff.mp hread
      obtain rfl : rest' = rest := (List.cons.inj hcons).2
      -- linking the entry in leaves memory alone
      have hkern₂ : (linkNew s₁ a made).2.kern =
          s.kern.setMem ((entPages s.kern cur u .pkt).foldl ppagePin m) := by
        rw [← hkern₁]
        cases made <;> rfl
      obtain ⟨hpins, hfree, hmallocs, -⟩ := foldl_pin (entPages s.kern cur u .pkt) m
      refine ih (n := n) (by rw [hkern₂, readRing_setMem]; exact hrest) ?_ ?_ hloop
      · intro v hv
        rw [hkern₂]
        exact (hok v (mem_cons_of_mem _ hv)).setMem _
      rw [hkern₂]
      have hroom₂ := hroom₁.pin hfree hmallocs fun p hp => by
        rw [hpins p, count_eq_zero_of_not_mem
          fun hmem => hp (mem_flatMap.mpr ⟨u, mem_cons_self .., hmem⟩), Nat.add_zero]
      exact hroom₂.mono fun q hq => by
        rw [flatMap_cons]
        exact mem_append_right _ hq

end

end Exokernel
