import Exokernel.Proof.RingIds

/-!
# Editing a ring — the address by which an entry is looked for

`sys_pktring_modring` and `sys_msgring_modring` are given the address of an entry of the user's ring,
and look for the entry of the kernel's ring that records it. **What is recorded is another
address**: `pktringent_setup` is handed a copy of the user's entry on the kernel's stack, and takes
the address of the copy for the user's. All entries of a ring record this one address, so an edit is
refused whichever entry it names.
-/
set_option autoImplicit false

namespace Exokernel

open Function Option

/-! ## 1. What the entries record -/

/-- An entry in use was in use before and records what it did, or it records `frame`. -/
def Stamps (frame : BitVec 32) (s s' : Rings) : Prop :=
  ∀ a, s'.live a = true → (s'.ents a).appaddr = frame ∨
    s.live a = true ∧ (s'.ents a).appaddr = (s.ents a).appaddr

section
variable {kind : RingKind} {cur : Fin nenv} {ram : Ram} {junk : Nat → BitVec 32 × BitVec 32}
  {frame head : BitVec 32} {s s₁ s' : Rings}

theorem Stamps.trans (h : Stamps frame s s₁) (h' : Stamps frame s₁ s') : Stamps frame s s' := by
  intro a ha
  rcases h' a ha with hf | ⟨ha₁, heq⟩
  · exact .inl hf
  · rw [heq]
    exact h a ha₁

theorem setNext_appaddr (s : Rings) (a b c : Nat) :
    ((s.setNext a b).ents c).appaddr = (s.ents c).appaddr := by
  by_cases hc : c = a
  · subst hc
    simp [Rings.setNext, Rings.modEnt]
  · simp [Rings.setNext, Rings.modEnt, hc]

theorem Stamps.linkNew (s : Rings) (k : Nat) (made : Option (Nat × Nat)) :
    Stamps frame s (linkNew s k made).2 := by
  intro a ha
  cases made with
  | none => exact .inr ⟨ha, setNext_appaddr s k k a⟩
  | some rk => exact .inr ⟨ha, (setNext_appaddr _ _ _ a).trans (setNext_appaddr ..)⟩

theorem Stamps.setup {u : UserEnt} {a k : Nat}
    (h : ringentSetup kind s cur u frame a = some (some k, s')) : Stamps frame s s' := by
  rcases ringentSetup_cases h with ⟨m, -, hr, -⟩ | ⟨m, -, -, ⟨-, -, -, rfl⟩ | ⟨hr, -⟩⟩
  · cases hr
  · intro c hc
    by_cases hca : c = a
    · subst hca
      exact .inl (by simp [Rings.modEnt, UserEnt.kernEnt])
    refine .inr ⟨?_, ?_⟩
    · simpa [Rings.modEnt, Rings.give, Rings.setMem, hca] using hc
    · simp [Rings.modEnt, Rings.give, Rings.setMem, hca]
  · cases hr

/-- The loop over a user's ring: one round, and then the others. -/
theorem Stamps.setringLoop (addrs : List Nat) : ∀ {utmp : BitVec 32} {made : Option (Nat × Nat)}
    {s : Rings} {ring : Option Nat},
    setringLoop kind cur ram junk frame head addrs utmp made s = some (.done, ring, s') →
    Stamps frame s s' := by
  induction addrs with
  | nil =>
    intro utmp made s ring h
    cases h
  | cons a addrs ih =>
    intro utmp made s ring h
    unfold Exokernel.setringLoop at h
    split at h
    · cases h
    split at h
    · cases h
    obtain ⟨⟨ktmp, s₁⟩, hsetup, h⟩ := bind_eq_some_iff.mp h
    cases ktmp with
    | none => cases h
    | some k =>
      have hround := (Stamps.setup hsetup).trans (.linkNew s₁ k made)
      dsimp only at h
      split at h
      · cases h
        exact hround
      · exact hround.trans (ih h)

/-! ## 2. The search -/

theorem ringMod_notFound {l : List Nat} {first fuel a : Nat} {newentry oldentry : BitVec 32}
    {replace : Bool} (h : RingAt s (some first) l) (hfuel : l.length ≤ fuel)
    (hnone : ∀ c ∈ l, (s.ents c).appaddr ≠ oldentry) :
    ringMod kind fuel s cur first newentry oldentry replace ram junk frame a =
      some (.err .notFound, first, s) := by
  obtain ⟨kprev, hk, hfind⟩ := h.findPrev hfuel
  have hnext := h.circ.next_mem hk
  unfold ringMod
  rw [hfind, bind_some, h.ent? hk, bind_some, h.ent? hnext, bind_some, if_pos (hnone _ hnext)]

theorem RingMade.notFound {addrs : List Nat} {ring : Option Nat} {oldentry : BitVec 32}
    (h : RingMade kind cur ram junk frame head addrs s s' ring) (hold : oldentry ≠ frame) :
    ∃ first l, ring = some first ∧ RingAt s' (some first) l ∧
      ∀ c ∈ l, (s'.ents c).appaddr ≠ oldentry := by
  obtain ⟨-, t, s₁, -, hloop, hents, hlive⟩ := h
  obtain ⟨l, us, -, hb⟩ :=
    setringLoop_done addrs (l := []) (show MadeAt t [] none from rfl) nofun hloop
  obtain ⟨first, rfl⟩ := ne_none_iff_exists'.mp hb.found
  refine ⟨first, l, rfl, hb.isRing.congr hents hlive, fun c hc => ?_⟩
  rw [hents]
  rcases Stamps.setringLoop addrs hloop c (hb.isRing.live c hc) with hf | ⟨hlive, -⟩
  · rw [hf]
    exact hold.symm
  · rw [hb.fresh c hc] at hlive
    cases hlive

end

/-! ## 3. The calls -/

/-- **No edit finds its entry.** After a ring has been set, `modring` with any address but the one
    of the copies says that there is no such entry, and changes nothing. -/
theorem modring_never_finds (s : Rings) (cur : Fin nenv) (head : BitVec 32) (ram : Ram)
    (junk : Nat → BitVec 32 × BitVec 32) (frame : BitVec 32) (addrs : List Nat) (f : Nat)
    (newentry oldentry : BitVec 32) (replace : Bool) (ram' : Ram) (frame' : BitVec 32) (a : Nat)
    (hold : oldentry ≠ frame) (hzero : oldentry ≠ 0) :
    (∀ ringid id s', sysPktringSetring f s cur ringid head ram junk frame addrs =
        some (.ok id, s') → id < maxPktringCount → ∃ n, ∀ fuel, n ≤ fuel →
      sysPktringModring fuel s' cur (BitVec.ofNat 32 id) newentry oldentry replace ram' junk frame'
        a = some (.err .notFound, s')) ∧
    ∀ s', sysMsgringSetring f s cur head ram junk frame addrs = some (.ok, s') →
      ∃ n, ∀ fuel, n ≤ fuel →
      sysMsgringModring fuel s' cur newentry oldentry replace ram' junk frame' a =
        some (.err .notFound, s') := by
  constructor
  · intro ringid id s' hset hid
    obtain ⟨first, l, hfirst, hring, hnone⟩ := (sysPktringSetring_ok hset).notFound hold
    refine ⟨l.length, fun fuel hfuel => ?_⟩
    have hidN : (BitVec.ofNat 32 id).toNat = id := by
      unfold maxPktringCount at hid
      rw [BitVec.toNat_ofNat]
      omega
    unfold sysPktringModring
    rw [hidN, if_neg (Nat.not_le.mpr hid), if_neg hzero, hfirst]
    dsimp only
    rw [ringMod_notFound hring hfuel hnone, map_some, ← hfirst, Rings.setRing, update_eq_self]
  · intro s' hset
    obtain ⟨first, l, hfirst, hring, hnone⟩ := (sysMsgringSetring_ok hset).notFound hold
    refine ⟨l.length, fun fuel hfuel => ?_⟩
    unfold sysMsgringModring
    rw [if_neg hzero, hfirst]
    dsimp only
    rw [ringMod_notFound hring hfuel hnone, map_some, ← hfirst, update_eq_self]

/-- An entry at 0x1000, set up from a copy at 0xf0000000, is not found again at 0x1000. -/
theorem modring_never_finds_one :
    sysPktringSetring 0 noRings.rings 0 0 0x1000 oneEntry (fun _ => (0, 0)) 0xf0000000 [7] =
      some (.ok 1, oneRing.rings) ∧
    ∃ n, ∀ fuel, n ≤ fuel →
      sysPktringModring fuel oneRing.rings 0 1 0 0x1000 true oneEntry (fun _ => (0, 0)) 0xf0000000
        8 = some (.err .notFound, oneRing.rings) := by
  have hset : sysPktringSetring 0 noRings.rings 0 0 0x1000 oneEntry (fun _ => (0, 0)) 0xf0000000 [7]
      = some (.ok 1, oneRing.rings) := rfl
  exact ⟨hset, (modring_never_finds noRings.rings 0 0x1000 oneEntry (fun _ => (0, 0)) 0xf0000000 [7]
    0 0 0x1000 true oneEntry 0xf0000000 8 (by decide) (by decide)).1 0 1 oneRing.rings hset
    (by decide)⟩

/-- **An entry that is in the user's ring is not found**: the ring of the one entry at 0x1000, set up
    by the kernel, refuses the deletion of the entry at 0x1000. -/
theorem modring_loses_entry :
    ¬ ∀ (s s' : Rings) (cur : Fin nenv) (head : BitVec 32) (ram : Ram)
        (junk : Nat → BitVec 32 × BitVec 32) (frame : BitVec 32) (addrs : List Nat)
        (fuel a : Nat), sysPktringSetring fuel s cur 0 head ram junk frame addrs =
          some (.ok 1, s') → ∀ s'',
      sysPktringModring fuel s' cur 1 0 head true ram junk frame a ≠
        some (.err .notFound, s'') := by
  intro h
  exact h noRings.rings oneRing.rings 0 0x1000 oneEntry (fun _ => (0, 0)) 0xf0000000 [7] 1 8 rfl _
    rfl

end Exokernel
