import Exokernel.Lib.Run
import Exokernel.Xn.Registry

/-!
# Pointers are written after what they point to

XN lets a block of metadata go to the disk only when every block of metadata that was
allocated under it has been written. What it looks at is the graph of `dependency.c`.

**The graph is exact for objects of one block, and only for them.** Dependencies are
recorded and checked for an eighth of an object's sectors, counted from the first one,
while a completed write clears the first sector of the block. With fewer than 8 sectors
nothing is recorded or checked, with 16 or more something is recorded that nothing
clears. And a flush counts as a write, so only what is on the disk may be flushed.
-/
set_option autoImplicit false

namespace Exokernel.Xn

open Function Option

/-! ## 1. Which sectors are visited -/

theorem dbToSec_inj {a b : Db} (h : dbToSec a = dbToSec b) : a = b :=
  Nat.eq_of_mul_eq_mul_right (by decide) h

theorem dbToSec_ne (q b : Nat) : q * 8 ≠ b * 8 + 1 := by omega

theorem visited_block {a n : Nat} (h8 : 8 ≤ n) (h16 : n < 16) : visited a n = [a] := by
  have h1 : n / 8 = 1 := by omega
  simp [visited, h1]

theorem visited_small {a n : Nat} (h8 : n < 8) : visited a n = [] := by
  have h0 : n / 8 = 0 := by omega
  simp [visited, h0]

theorem visited_blocks (a n : Nat) : visited a (blocksToSecs n) = (List.range n).map (a + ·) := by
  simp [visited, blocksToSecs]

/-- An object of fewer than 16 sectors has at most two blocks, and one of 8 to 15 has one. -/
theorem Td.blocks_le {td : Td} (h : td.nsecs < 16) :
    bytesToBlocks td.bytes ≤ 2 ∧ (8 ≤ td.nsecs → 0 < bytesToBlocks td.bytes) := by
  have hlt : td.bytes < 2 ^ 32 := Nat.mod_lt _ (by decide)
  simp only [Td.nsecs, bytesToSecs, bytesToBlocks, blockBytes, sectorBytes] at *
  omega

/-! ## 2. The part of an entry that matters -/

/-- What an entry says about its object and its kin. -/
structure Kin where
  td : Td
  pSec : Sec
  vKids : List Db

def Xr.kin (x : Xr) : Kin := ⟨x.td, x.pSec, x.vKids⟩

def Reg.kin (r : Reg) (b : Db) : Option Kin := (r.xr b).map Xr.kin

/-- The invariant, over the kin of the entries, the graph and what is on the disk. The
    edges are the pointers to metadata that is not on the disk yet, and the block that
    holds such a pointer is in the registry and is checked before it is written. -/
structure Ordered (k : Db → Option Kin) (d : Deps) (onDisk : Db → Bool) : Prop where
  ok : d.Ok
  pos : k 0 = none
  small : ∀ b x, k b = some x → x.td.nsecs < 16
  edges : ∀ a c, d.Edge a c ↔ ∃ p n x, a = dbToSec p ∧ c = dbToSec n ∧ k n = some x
    ∧ x.td.isMeta = true ∧ x.pSec = dbToSec p ∧ onDisk n = false
  parent : ∀ n x, k n = some x → x.td.isMeta = true → onDisk n = false →
    8 ≤ x.td.nsecs ∧ ∃ p y, x.pSec = dbToSec p ∧ k p = some y ∧ 8 ≤ y.td.nsecs ∧ n ∈ y.vKids

/-- The metadata that a pointer waits for, with its type and the sector of the pointer: what is in
    the registry and not on the disk. -/
def unwritten (k : Db → Option Kin) (onDisk : Db → Bool) (n : Db) : Option (Td × Sec) :=
  (k n).bind fun x => if x.td.isMeta ∧ onDisk n = false then some (x.td, x.pSec) else none

theorem unwritten_eq {k : Db → Option Kin} {onDisk : Db → Bool} {n : Db} {td : Td} {sec : Sec} :
    unwritten k onDisk n = some (td, sec) ↔
      ∃ x, k n = some x ∧ x.td.isMeta = true ∧ onDisk n = false ∧ x.td = td ∧ x.pSec = sec := by
  simp [unwritten, Option.bind_eq_some_iff, and_assoc]

section Keeps

variable {k : Db → Option Kin} {d d' : Deps} {onDisk : Db → Bool} {b p : Db}

variable {a c : Sec} {x : Kin}

variable (h : Ordered k d onDisk)
include h

/-- Only sectors that begin a block are in the graph. -/
theorem Ordered.edge_mul (he : d.Edge a c) :
    ∃ p n, a = dbToSec p ∧ c = dbToSec n := by
  obtain ⟨p, n, _, ha, hc, _⟩ := (h.edges a c).mp he
  exact ⟨p, n, ha, hc⟩

/-- The graph stays right if the same metadata waits, below the same blocks. -/
theorem Ordered.same {k' : Db → Option Kin} {onDisk' : Db → Bool} (hpos : k' 0 = none)
    (hsmall : ∀ b x, k' b = some x → x.td.nsecs < 16)
    (hsame : ∀ n, unwritten k' onDisk' n = unwritten k onDisk n)
    (hkids : ∀ p y, k p = some y → ∀ n ∈ y.vKids, unwritten k onDisk n ≠ none →
      ∃ y', k' p = some y' ∧ y'.td = y.td ∧ n ∈ y'.vKids) : Ordered k' d onDisk' := by
  refine ⟨h.ok, hpos, hsmall, fun a c => (h.edges a c).trans ?_, fun n x' hx' hm' hd' => ?_⟩
  · constructor
    · rintro ⟨p, n, x, ha, hc, hx, hm, hp, hd⟩
      obtain ⟨x', hx', hm', hd', -, hp'⟩ := unwritten_eq.mp
        ((hsame n).trans (unwritten_eq.mpr ⟨x, hx, hm, hd, rfl, hp⟩))
      exact ⟨p, n, x', ha, hc, hx', hm', hp', hd'⟩
    · rintro ⟨p, n, x', ha, hc, hx', hm', hp', hd'⟩
      obtain ⟨x, hx, hm, hd, -, hp⟩ := unwritten_eq.mp
        ((hsame n).symm.trans (unwritten_eq.mpr ⟨x', hx', hm', hd', rfl, hp'⟩))
      exact ⟨p, n, x, ha, hc, hx, hm, hp, hd⟩
  · have hun := (hsame n).symm.trans (unwritten_eq.mpr ⟨x', hx', hm', hd', rfl, rfl⟩)
    obtain ⟨x, hx, hm, hd, htd, hsec⟩ := unwritten_eq.mp hun
    obtain ⟨h8, p, y, hp, hy, hy8, hkid⟩ := h.parent n x hx hm hd
    obtain ⟨y', hy', hytd, hkid'⟩ := hkids p y hy n hkid (by simp [hun])
    exact ⟨htd ▸ h8, p, y', hsec ▸ hp, hy', hytd ▸ hy8, hkid'⟩

theorem Ordered.insert {bs : List Db} (hbs : ∀ b ∈ bs, b ≠ 0 ∧ k b = none)
    (hsmall : x.td.nsecs < 16) : Ordered (fun b => if b ∈ bs then some x else k b) d
      (fun b => if b ∈ bs then true else onDisk b) := by
  refine h.same ?_ (fun b' x' hx => ?_) (fun n => ?_) fun p y hy n hkid _ => ?_
  · rw [if_neg fun h0 => (hbs 0 h0).1 rfl, h.pos]
  · split at hx
    · cases hx
      exact hsmall
    · exact h.small b' x' hx
  · by_cases hn : n ∈ bs
    · simp [unwritten, hn, (hbs n hn).2]
    · simp [unwritten, hn]
  · have hpb : p ∉ bs := fun hp => by simp [(hbs p hp).2] at hy
    exact ⟨y, by simp [hpb, hy], rfl, hkid⟩

theorem Ordered.addKid {y : Kin} (hp : k p = some y) :
    Ordered (update k p (some { y with vKids := b :: y.vKids })) d onDisk := by
  have hp0 : (0 : Db) ≠ p := fun he => by simp [← he, h.pos] at hp
  refine h.same (by rw [update_of_ne hp0, h.pos]) (fun n x' hx => ?_) (fun n => ?_)
    fun q z hz n hkid _ => ?_
  · by_cases hn : n = p
    · subst hn
      obtain rfl : { y with vKids := b :: y.vKids } = x' := by simpa using hx
      exact h.small n y hp
    · exact h.small n x' (by simpa [update_of_ne hn] using hx)
  · by_cases hn : n = p
    · simp [unwritten, hn, hp]
    · simp [unwritten, update_of_ne hn]
  · by_cases hq : q = p
    · subst hq
      obtain rfl : y = z := by simpa [hp] using hz
      exact ⟨{ y with vKids := b :: y.vKids }, by simp, rfl, List.mem_cons_of_mem _ hkid⟩
    · exact ⟨z, by simp [update_of_ne hq, hz], rfl, hkid⟩

/-- A block that is in the registry is no longer on the disk: its parent depends on it. -/
theorem Ordered.depend {y : Kin} (hx : k b = some x)
    (hsec : x.pSec = dbToSec p) (hx8 : 8 ≤ x.td.nsecs) (hy : k p = some y) (h8 : 8 ≤ y.td.nsecs)
    (hkid : b ∈ y.vKids) (hmeta : x.td.isMeta = true) (hold : onDisk b = true) :
    Ordered k (addEdge d (dbToSec p) (dbToSec b)) (update onDisk b false) := by
  refine ⟨addEdge_ok h.ok, h.pos, h.small, fun a c => ?_, fun n x' hx' hm hd => ?_⟩
  · rw [addEdge_edge, h.edges a c]
    constructor
    · rintro (⟨q, n, x', ha, hc, hx', hm, hq, hd⟩ | ⟨rfl, rfl⟩)
      · have hn : n ≠ b := fun he => by simp [he, hold] at hd
        exact ⟨q, n, x', ha, hc, hx', hm, hq, by simp [update_of_ne hn, hd]⟩
      · exact ⟨p, b, x, rfl, rfl, hx, hmeta, hsec, by simp⟩
    · rintro ⟨q, n, x', ha, hc, hx', hm, hq, hd⟩
      by_cases hn : n = b
      · subst hn
        obtain rfl : x = x' := by simpa [hx] using hx'
        exact .inr ⟨by rw [ha, ← hq, hsec], hc⟩
      · exact .inl ⟨q, n, x', ha, hc, hx', hm, hq, by simpa [update_of_ne hn] using hd⟩
  · by_cases hn : n = b
    · subst hn
      obtain rfl : x = x' := by simpa [hx] using hx'
      exact ⟨hx8, p, y, hsec, hy, h8, hkid⟩
    · exact h.parent n x' hx' hm (by simpa [update_of_ne hn] using hd)

/-- Whether a block that is no metadata is on the disk does not matter. -/
theorem Ordered.data {v : Bool} (hdata : ∀ x, k b = some x → x.td.isMeta = false) :
    Ordered k d (update onDisk b v) := by
  refine h.same h.pos h.small (fun n => ?_) fun p y hy n hkid _ => ⟨y, hy, rfl, hkid⟩
  by_cases hn : n = b
  · subst hn
    cases hx : k n with
    | none => simp [unwritten, hx]
    | some x => simp [unwritten, hx, hdata x hx]
  · simp [unwritten, update_of_ne hn]

theorem Ordered.written (hok : d'.Ok)
    (he : ∀ a c, d'.Edge a c ↔ d.Edge a c ∧ c ≠ dbToSec b) :
    Ordered k d' (update onDisk b true) := by
  refine ⟨hok, h.pos, h.small, fun a c => ?_, fun n x hx hm hd => ?_⟩
  · rw [he a c, h.edges a c]
    constructor
    · rintro ⟨⟨q, n, x, ha, hc, hx, hm, hq, hd⟩, hne⟩
      have hn : n ≠ b := fun hnb => hne (hnb ▸ hc)
      exact ⟨q, n, x, ha, hc, hx, hm, hq, by simp [update_of_ne hn, hd]⟩
    rintro ⟨q, n, x, ha, hc, hx, hm, hq, hd⟩
    have hn : n ≠ b := fun hnb => by simp [hnb] at hd
    rw [update_of_ne hn] at hd
    exact ⟨⟨q, n, x, ha, hc, hx, hm, hq, hd⟩, fun hcb => hn (dbToSec_inj (hc ▸ hcb))⟩
  · have hn : n ≠ b := fun hnb => by simp [hnb] at hd
    exact h.parent n x hx hm (by simpa [update_of_ne hn] using hd)

/-- An entry without kids goes, after the edges to it have gone. -/
theorem Ordered.remove (hx : k b = some x)
    (hkids : x.vKids = []) (hdisk : onDisk b = true) :
    Ordered (update (fun c => (k c).map fun y => { y with vKids := y.vKids.erase b }) b none)
      d onDisk := by
  refine h.same ?_ (fun b' x' hx' => ?_) (fun n => ?_) fun q z hz n hkid hun => ?_
  · by_cases h0 : (0 : Db) = b
    · simp [h0]
    · simp [update_of_ne h0, h.pos]
  · have hb' : b' ≠ b := fun he => by simp [he] at hx'
    rw [update_of_ne hb', map_eq_some_iff] at hx'
    obtain ⟨y, hy, rfl⟩ := hx'
    exact h.small b' y hy
  · by_cases hn : n = b
    · simp [unwritten, hn, hx, hdisk]
    · cases hy : k n <;> simp [unwritten, update_of_ne hn, hy]
  · have hqb : q ≠ b := by
      rintro rfl
      obtain rfl : x = z := by simpa [hx] using hz
      simp [hkids] at hkid
    have hn : n ≠ b := fun he => hun (by simp [unwritten, he, hx, hdisk])
    exact ⟨{ z with vKids := z.vKids.erase b }, by rw [update_of_ne hqb, hz]; rfl, rfl,
      (List.mem_erase_of_ne hn).mpr hkid⟩

/-- An edge leaves only the sectors of entries that are checked. -/
theorem Ordered.source (he : d.Edge (dbToSec b) c) :
    ∃ x, k b = some x ∧ 8 ≤ x.td.nsecs := by
  obtain ⟨p, n, x, hp, _, hx, hm, hq, hd⟩ := (h.edges _ _).mp he
  obtain ⟨_, q, y, hsec, hy, h8, _⟩ := h.parent n x hx hm hd
  obtain rfl : q = b := dbToSec_inj (by rw [← hsec, hq, ← hp])
  exact ⟨y, hy, h8⟩

/-- An edge leads only to blocks that are in the registry and not on the disk. -/
theorem Ordered.target (he : d.Edge a (dbToSec b)) :
    ∃ x, k b = some x ∧ x.td.isMeta = true ∧ onDisk b = false ∧ 8 ≤ x.td.nsecs := by
  obtain ⟨p, n, x, _, hn, hx, hm, _, hd⟩ := (h.edges _ _).mp he
  obtain rfl : n = b := (dbToSec_inj hn).symm
  exact ⟨x, hx, hm, hd, (h.parent n x hx hm hd).1⟩

/-- The other sectors of a block are in no edge. -/
theorem Ordered.inner (he : d.Edge a c) (b : Db) :
    a ≠ dbToSec b + 1 ∧ c ≠ dbToSec b + 1 := by
  obtain ⟨p, n, rfl, rfl⟩ := h.edge_mul he
  exact ⟨dbToSec_ne p b, dbToSec_ne n b⟩

/-- **`rules_can_write` accepts a block exactly if no edge leaves its sector.** -/
theorem Ordered.canWrite {n : Xr} (hn : k b = some n.kin) :
    rulesCanWrite d b n = .ok () ↔ ∀ c, ¬d.Edge (dbToSec b) c := by
  have hsmall := h.small b n.kin hn
  simp only [Xr.kin] at hsmall
  unfold rulesCanWrite sysSecCanWriteR
  by_cases h8 : 8 ≤ n.td.nsecs
  · rw [visited_block h8 hsmall, ← sysSecCanWrite_ok h.ok]
    simp only [canWriteAll]
    cases sysSecCanWrite d (dbToSec b) with
    | error e => simp
    | ok u => simp
  · rw [visited_small (Nat.lt_of_not_le h8)]
    refine ⟨fun _ c he => ?_, fun _ => rfl⟩
    obtain ⟨x, hx, hx8⟩ := h.source he
    obtain rfl : n.kin = x := by simpa [hn] using hx
    exact h8 hx8

end Keeps

/-! ## 3. Entries and their kin -/

section Kin

variable {r r' : Reg} {b p : Db}

theorem Reg.kin_mod {f : Xr → Xr} (hf : ∀ x, (f x).kin = x.kin) : (r.mod b f).kin = r.kin := by
  funext c
  by_cases hc : c = b
  · subst hc
    simp [Reg.kin, Reg.mod, map_map, Function.comp_def, hf]
  · simp [Reg.kin, Reg.mod, update_of_ne hc]

@[simp] theorem Reg.kin_written : (r.mod b Xr.written).kin = r.kin := by
  apply Reg.kin_mod
  intro x
  rfl

@[simp] theorem Reg.kin_unlock : (r.mod b Xr.unlock).kin = r.kin := by
  apply Reg.kin_mod
  intro x
  rfl

@[simp] theorem Reg.kin_unbind : (r.mod b Xr.unbind).kin = r.kin := by
  apply Reg.kin_mod
  intro x
  rfl

theorem Reg.kin_addKid {y : Kin} (hp : r.kin p = some y) : (r.mod p (Xr.addKid b)).kin
    = update r.kin p (some { y with vKids := b :: y.vKids }) := by
  obtain ⟨n, hn, rfl⟩ := map_eq_some_iff.mp hp
  funext c
  by_cases hc : c = p
  · subst hc
    simp [Reg.kin, Reg.mod, hn, Xr.addKid, Xr.kin]
  · simp [Reg.kin, Reg.mod, update_of_ne hc]

@[simp] theorem Reg.kin_setDeps (d : Deps) : (r.setDeps d).kin = r.kin := rfl

theorem Reg.kin_eq_none : r.kin b = none ↔ r.xr b = none := by simp [Reg.kin]

theorem Reg.kin_of {n : Xr} (h : r.xr b = some n) : r.kin b = some n.kin := by simp [Reg.kin, h]

theorem rulesWritten_eq {e db : Db} {n : Nat} {res : Except XnErr Unit} {d' : Deps}
    (h : secWrittenR r.deps (dbToSec db) (blocksToSecs n) = (res, d')) :
    rulesWritten r e db n = (res, (r.mod e Xr.written).setDeps d') := by
  simp [rulesWritten, h]

theorem unlinkKid_kin : (unlinkKid r b).kin
    = fun c => (r.kin c).map fun y => { y with vKids := y.vKids.erase b } := by
  funext c
  cases hc : r.xr c with
  | none => simp [unlinkKid, Reg.kin, hc]
  | some x => simp [unlinkKid, Reg.kin, hc, Xr.kin]

theorem xrDel_kin {freedb : Bool} (h : xrDel r b freedb = some r') :
    r'.kin = update r.kin b none ∧ r'.deps = r.deps := by
  obtain ⟨r₁, h₁, rfl⟩ := map_eq_some_iff.mp h
  have hsame : r₁.xr = r.xr ∧ r₁.deps = r.deps := by
    cases freedb with
    | false => cases h₁; exact ⟨rfl, rfl⟩
    | true =>
      simp only [dbFree, if_true] at h₁
      split at h₁
      · cases h₁
      · cases h₁
        exact ⟨rfl, rfl⟩
  refine ⟨?_, hsame.2⟩
  funext c
  by_cases hc : c = b
  · simp [Reg.kin, hc]
  · simp [Reg.kin, update_of_ne hc, hsame.1]

end Kin

/-! ## 4. What each call does -/

section Calls

variable {r r' : Reg} {onDisk : Db → Bool} {b p : Db}

theorem rulesFlushEntry_kin {n : Xr} : (rulesFlushEntry r b n).2.kin = r.kin := by
  unfold rulesFlushEntry rulesWritten
  cases rulesCanWrite r.deps b n with
  | error e => rfl
  | ok u =>
    cases hw : secWrittenR r.deps (dbToSec b) (blocksToSecs (bytesToBlocks n.td.bytes)) with
    | mk res d' => cases res <;> simp

variable (h : Ordered r.kin r.deps onDisk)
include h

/-- One block of a completed write, which no edge leaves. -/
theorem Ordered.postWrite (hout : ∀ c, ¬r.deps.Edge (dbToSec b) c) :
    Ordered (postWrite r b).kin (postWrite r b).deps (update onDisk b true)
      ∧ ∀ a c, (postWrite r b).deps.Edge a c → r.deps.Edge a c := by
  unfold Xn.postWrite
  cases hl : xrLookup r b with
  | none =>
    have hnone : r.kin b = none := by
      by_cases hb : b = 0
      · rw [hb, h.pos]
      · exact Reg.kin_eq_none.mpr (xrLookup_none hl hb)
    exact ⟨h.data (by simp [hnone]), fun _ _ he => he⟩
  | some n =>
    obtain ⟨d', hd', hok, he⟩ := secWritten_ok h.ok hout
    have hw : secWrittenR r.deps (dbToSec b) (blocksToSecs 1) = (.ok (), d') := by
      simp [secWrittenR, visited_blocks, writtenAll, hd']
    rw [rulesWritten_eq (r := r.mod b Xr.unlock) hw]
    refine ⟨?_, fun a c hac => ((he a c).mp hac).1⟩
    simpa using h.written hok he

theorem Ordered.postIo (bs : List Db)
    (hout : ∀ b ∈ bs, ∀ c, ¬r.deps.Edge (dbToSec b) c) :
    Ordered (bs.foldl Xn.postWrite r).kin (bs.foldl Xn.postWrite r).deps
      fun b => if b ∈ bs then true else onDisk b := by
  induction bs generalizing r onDisk with
  | nil => simpa using h
  | cons b bs ih =>
    obtain ⟨h₁, hsub⟩ := h.postWrite (hout b (by simp))
    have h₂ := ih h₁ fun b' hb' c he => hout b' (List.mem_cons_of_mem _ hb') c (hsub _ _ he)
    rw [List.foldl_cons]
    convert h₂ using 2 with b'
    by_cases hb' : b' = b
    · simp [hb']
    · simp [hb']

/-- A flush or a free of a block that no edge leaves removes the edges to it. -/
theorem Ordered.marked {n : Xr} (hn : r.xr b = some n)
    (hout : ∀ c, ¬r.deps.Edge (dbToSec b) c) :
    ∃ d', secWrittenR r.deps (dbToSec b) (blocksToSecs (bytesToBlocks n.td.bytes)) = (.ok (), d')
      ∧ d'.Ok ∧ ∀ a c, d'.Edge a c ↔ r.deps.Edge a c ∧ c ≠ dbToSec b := by
  have hsmall := h.small b n.kin (Reg.kin_of hn)
  obtain ⟨hle, hpos⟩ := Td.blocks_le hsmall
  unfold secWrittenR
  rw [visited_blocks]
  obtain h0 | h0 | h0 : bytesToBlocks n.td.bytes = 0 ∨ bytesToBlocks n.td.bytes = 1
      ∨ bytesToBlocks n.td.bytes = 2 := by
    have hle' : bytesToBlocks n.td.bytes ≤ 2 := hle
    omega
  · -- an object without blocks is in no edge either
    refine ⟨r.deps, by simp [h0, writtenAll], h.ok, fun a c => ⟨fun he => ⟨he, ?_⟩, fun he => he.1⟩⟩
    rintro rfl
    obtain ⟨x, hx, _, _, h8⟩ := h.target he
    obtain rfl : n.kin = x := by simpa [Reg.kin_of hn] using hx
    exact absurd h0 (Nat.ne_of_gt (hpos h8))
  · obtain ⟨d', hd', hok, he⟩ := secWritten_ok h.ok hout
    exact ⟨d', by simp [h0, writtenAll, hd'], hok, he⟩
  · obtain ⟨d₁, hd₁, hok₁, he₁⟩ := secWritten_ok h.ok hout
    obtain ⟨d₂, hd₂, hok₂, he₂⟩ := secWritten_ok (b := dbToSec b + 1) hok₁ fun c he =>
      (h.inner ((he₁ _ _).mp he).1 b).1 rfl
    refine ⟨d₂, by simp [h0, List.range_succ, writtenAll, hd₁, hd₂], hok₂, fun a c => ?_⟩
    rw [he₂ a c, he₁ a c]
    exact ⟨fun h => h.1, fun hac => ⟨hac, (h.inner hac.1 b).2⟩⟩

/-- A flush of a block that is on the disk changes nothing in the graph. -/
theorem Ordered.flushEntry {n : Xr} (hn : r.xr b = some n)
    (hdisk : onDisk b = true) :
    Ordered (rulesFlushEntry r b n).2.kin (rulesFlushEntry r b n).2.deps onDisk := by
  unfold rulesFlushEntry
  cases hcw : rulesCanWrite r.deps b n with
  | error e => exact h
  | ok u =>
    obtain ⟨d', hw, hok, he⟩ := h.marked hn ((h.canWrite (Reg.kin_of hn)).mp hcw)
    have hput : update onDisk b true = onDisk := by rw [← hdisk, update_eq_self]
    rw [rulesWritten_eq hw]
    simpa [hput] using h.written hok he

theorem Ordered.flushAll (bs : List Db)
    (hdisk : ∀ b ∈ bs, (r.kin b).isSome → onDisk b = true) :
    Ordered (flushAll bs r).2.kin (flushAll bs r).2.deps onDisk := by
  induction bs generalizing r with
  | nil => exact h
  | cons b bs ih =>
    have hrest : ∀ b ∈ bs, (r.kin b).isSome → onDisk b = true := fun b hb =>
      hdisk b (List.mem_cons_of_mem _ hb)
    unfold Xn.flushAll
    cases hl : xrLookup r b with
    | none => exact ih h hrest
    | some n =>
      have hn := (xrLookup_some hl).2
      have hf := h.flushEntry hn (hdisk b (by simp) (by simp [Reg.kin_of hn]))
      have hk := rulesFlushEntry_kin (r := r) (b := b) (n := n)
      dsimp only
      generalize rulesFlushEntry r b n = res at hf hk ⊢
      obtain ⟨_ | _, r'⟩ := res
      · exact hf
      · exact ih hf (by rw [hk]; exact hrest)

/-- One block is freed: its entry goes, and so do the edges to it. -/
theorem Ordered.free {n : Xr} {res : Except XnErr Unit}
    (hn : r.xr b = some n) (hf : rulesFree r b n = some (res, r')) :
    Ordered r'.kin r'.deps onDisk := by
  unfold rulesFree at hf
  split at hf
  · cases hf
    exact h
  rename_i hkids
  rw [not_not] at hkids
  cases hcw : rulesCanWrite r.deps b n with
  | error e =>
    simp only [hcw] at hf
    cases hf
    exact h
  | ok u =>
    obtain ⟨d', hw, hok, he⟩ := h.marked hn ((h.canWrite (Reg.kin_of hn)).mp hcw)
    simp only [hcw, rulesWritten_eq hw] at hf
    obtain ⟨r₁, hdel, hr₁⟩ := map_eq_some_iff.mp hf
    cases hr₁
    obtain ⟨hkin, hdeps⟩ := xrDel_kin hdel
    -- with the edges gone the entry can go; what the disk holds there no longer matters
    have hgone := (h.written hok he).remove (Reg.kin_of hn) hkids (by simp)
    have hback := hgone.data (b := b) (v := onDisk b) (by simp)
    rw [update_idem, update_eq_self] at hback
    rw [hkin, hdeps]
    simpa [unlinkKid_kin] using hback

theorem Ordered.deleteAll (bs : List Db) {res : Except XnErr Unit} (hd : deleteAll bs r = some (res, r')) :
    Ordered r'.kin r'.deps onDisk := by
  induction bs generalizing r with
  | nil =>
    cases hd
    exact h
  | cons b bs ih =>
    unfold Xn.deleteAll at hd
    cases hl : xrLookup r b with
    | none =>
      simp only [hl] at hd
      cases hd
      exact h
    | some n =>
      simp only [hl] at hd
      cases hf : rulesFree r b n with
      | none => simp [hf] at hd
      | some rs =>
        obtain ⟨res₁, r₁⟩ := rs
        have h₁ := h.free (xrLookup_some hl).2 hf
        cases res₁ with
        | error e =>
          simp only [hf] at hd
          cases hd
          exact h₁
        | ok u =>
          simp only [hf] at hd
          exact ih h₁ hd

/-- `rules_allocate` of one block of an object below block `p`. -/
theorem Ordered.allocate {td : Td} {kids : List Db} {y : Kin}
    (hb : r.kin b = some ⟨td, dbToSec p, kids⟩) (hp : r.kin p = some y) (hpb : p ≠ b)
    (hmeta : td.isMeta = true → 8 ≤ td.nsecs ∧ 8 ≤ y.td.nsecs) (hold : onDisk b = true) :
    Ordered (rulesAllocate p r b).kin (rulesAllocate p r b).deps (update onDisk b false)
      ∧ (rulesAllocate p r b).kin
        = update r.kin p (some { y with vKids := b :: y.vKids }) := by
  obtain ⟨n, hn, hnk⟩ := map_eq_some_iff.mp hb
  obtain ⟨rfl, hsec, -⟩ : n.td = td ∧ n.pSec = dbToSec p ∧ n.vKids = kids := by
    simpa [Xr.kin] using hnk
  have hmod : (r.mod p (Xr.addKid b)).kin
      = update r.kin p (some { y with vKids := b :: y.vKids }) := Reg.kin_addKid hp
  have hxr : (r.mod p (Xr.addKid b)).xr b = some n := by
    simp [Reg.mod, update_of_ne hpb.symm, hn]
  have hkid := h.addKid (b := b) hp
  have hb' : update r.kin p (some { y with vKids := b :: y.vKids }) b = some n.kin := by
    rw [update_of_ne hpb.symm, Reg.kin_of hn]
  unfold rulesAllocate
  simp only [hxr]
  by_cases hm : n.td.isMeta = true
  · obtain ⟨h8, hy8⟩ := hmeta hm
    have hdep : secDependR r.deps n.pSec (dbToSec b) n.td.nsecs
        = addEdge r.deps (dbToSec p) (dbToSec b) := by
      have hsmall := h.small b n.kin (Reg.kin_of hn)
      simp only [Xr.kin] at hsmall
      simp [secDependR, visited_block h8 hsmall, hsec, secDepend]
    rw [if_pos hm]
    refine ⟨?_, by rw [Reg.kin_setDeps, hmod]⟩
    rw [Reg.kin_setDeps, hmod, Reg.deps_setDeps, Reg.deps_mod, hdep]
    exact hkid.depend hb' hsec h8 (update_self ..) hy8 (by simp) hm hold
  · rw [if_neg hm, hmod]
    exact ⟨hkid.data (by simpa [hb', Xr.kin] using hm), rfl⟩

theorem Ordered.allocateAll {td : Td} {y : Kin} (bs : List Db)
    (hnd : bs.Nodup) (hbs : ∀ b ∈ bs, r.kin b = some ⟨td, dbToSec p, []⟩ ∧ onDisk b = true)
    (hp : r.kin p = some y) (hpbs : p ∉ bs)
    (hmeta : td.isMeta = true → 8 ≤ td.nsecs ∧ 8 ≤ y.td.nsecs) :
    Ordered (bs.foldl (rulesAllocate p) r).kin (bs.foldl (rulesAllocate p) r).deps
      fun b => if b ∈ bs then false else onDisk b := by
  induction bs generalizing r onDisk y with
  | nil => simpa using h
  | cons b bs ih =>
    obtain ⟨hnb, hnd⟩ := List.nodup_cons.mp hnd
    rw [List.mem_cons, not_or] at hpbs
    obtain ⟨hb, hold⟩ := hbs b (by simp)
    obtain ⟨h₁, hkin⟩ := h.allocate hb hp hpbs.1 hmeta hold
    have hp₁ : (rulesAllocate p r b).kin p = some { y with vKids := b :: y.vKids } := by
      rw [hkin, update_self]
    have h₂ := ih h₁ hnd (fun c hc => ?_) hp₁ hpbs.2 hmeta
    · rw [List.foldl_cons]
      convert h₂ using 2 with c
      by_cases hcb : c = b
      · simp [hcb, hnb]
      · simp [hcb]
    · obtain ⟨hck, hcd⟩ := hbs c (List.mem_cons_of_mem _ hc)
      have hcp : c ≠ p := fun he => hpbs.2 (he ▸ hc)
      have hcb : c ≠ b := fun he => hnb (he ▸ hc)
      exact ⟨by rw [hkin, update_of_ne hcp, hck], by rw [update_of_ne hcb, hcd]⟩

end Calls

/-! ## 5. Every run -/

/-- XN's registry and what the disk holds: whether a block has been written since it was
    allocated. -/
structure Machine where
  reg : Reg
  onDisk : Db → Bool

/-- What happens to blocks: an object is allocated below the pointer at `parent`, a write
    of blocks completes, blocks are flushed, blocks are freed. -/
inductive Event where
  | allocate (db : Db) (td : Td) (parent : Da) (mem : Db → Bool)
  | complete (db : Db) (nblocks : Nat)
  | flush (db : Db) (nblocks : Nat)
  | free (db : Db) (nblocks : Nat)

/-- The state after an event, unless the kernel stops. -/
def Event.exec (s : Machine) : Event → Option Machine
  | .allocate db td parent mem =>
    let n := bytesToBlocks td.bytes
    (xrAlloc s.reg db n td parent (daToSec parent) mem).map fun
      | (.ok (), r) => ⟨r, fun b => if b ∈ blocks db n then false else s.onDisk b⟩
      | (.error _, r) => ⟨r, s.onDisk⟩
  | .complete db n =>
    some ⟨xrPostIo s.reg db n true, fun b => if b ∈ blocks db n then true else s.onDisk b⟩
  | .flush db n => some ⟨(xrFlush s.reg db n).2, s.onDisk⟩
  | .free db n => (xrDelete s.reg db n).map fun (_, r) => ⟨r, s.onDisk⟩

def Machine.step (s : Machine) (e : Event) (s' : Machine) : Prop := e.exec s = some s'

/-- The events for which the graph is right. An object has fewer than 16 sectors; if it is
    metadata, it and the object that points to it have at least 8. A write completes only
    of blocks that may be written, and only what is on the disk is flushed. -/
def Event.Sound (s : Machine) : Event → Prop
  | .allocate _ td parent _ => td.nsecs < 16 ∧ (td.isMeta = true →
      8 ≤ td.nsecs ∧ ∀ y, xrLookup s.reg (daToDb parent) = some y → 8 ≤ y.td.nsecs)
  | .complete db n => ∀ b ∈ blocks db n, ∀ x, xrLookup s.reg b = some x →
      rulesCanWrite s.reg.deps b x = .ok ()
  | .flush db n => ∀ b ∈ blocks db n, (xrLookup s.reg b).isSome → s.onDisk b = true
  | .free _ _ => True

/-- A registry whose objects are all on the disk, each of fewer than 16 sectors, and
    nothing depends on anything. -/
structure Machine.Start (s : Machine) : Prop where
  pos : s.reg.xr 0 = none
  deps : s.reg.deps = Deps.empty
  small : ∀ b x, s.reg.xr b = some x → x.td.nsecs < 16
  disk : ∀ b, s.onDisk b = true

/-- Block `p` holds a pointer to block `n` of metadata. -/
def Machine.PointsTo (s : Machine) (p n : Db) : Prop :=
  ∃ x, s.reg.xr n = some x ∧ x.td.isMeta = true ∧ x.pSec = dbToSec p

def Machine.Good (s : Machine) : Prop := Ordered s.reg.kin s.reg.deps s.onDisk

theorem Machine.Start.good {s : Machine} (h : s.Start) : s.Good := by
  refine ⟨h.deps ▸ Deps.empty_ok, Reg.kin_eq_none.mpr h.pos, fun b x hx => ?_, fun a c => ?_,
    fun n x _ _ hd => by simp [h.disk n] at hd⟩
  · obtain ⟨n, hn, rfl⟩ := map_eq_some_iff.mp hx
    exact h.small b n hn
  refine ⟨fun he => ?_, fun ⟨_, n, _, _, _, _, _, _, hd⟩ => by simp [h.disk n] at hd⟩
  rw [h.deps] at he
  simp [Deps.Edge, Deps.empty] at he

theorem Ordered.alloc {r r' : Reg} {onDisk : Db → Bool} {db n : Nat} {td : Td} {parent : Da}
    {mem : Db → Bool} {res : Except XnErr Unit} (h : Ordered r.kin r.deps onDisk)
    (hsmall : td.nsecs < 16) (hmeta : td.isMeta = true →
      8 ≤ td.nsecs ∧ ∀ y, xrLookup r (daToDb parent) = some y → 8 ≤ y.td.nsecs)
    (ha : xrAlloc r db n td parent (daToSec parent) mem = some (res, r')) :
    (res = .ok () ∧
      Ordered r'.kin r'.deps fun b => if b ∈ blocks db n then false else onDisk b) ∨
    ∃ e, res = .error e ∧ r' = r := by
  rcases xrAlloc_some ha with ⟨hres, hparent, hnew, rfl⟩ | herr
  · refine .inl ⟨hres, ?_⟩
    obtain ⟨y, hy⟩ := isSome_iff_exists.mp hparent
    have hyr := (xrLookup_some hy).2
    have hkin : (r.withNew td parent (daToSec parent) (blocks db n)).kin =
        fun b => if b ∈ blocks db n then some ⟨td, daToSec parent, []⟩ else r.kin b := by
      funext b
      simp only [Reg.kin, Reg.withNew]
      split <;> rfl
    have h₁ : Ordered (r.withNew td parent (daToSec parent) (blocks db n)).kin r.deps
        fun b => if b ∈ blocks db n then true else onDisk b := by
      rw [hkin]
      exact h.insert (fun b hb => ⟨(hnew b hb).1, Reg.kin_eq_none.mpr (hnew b hb).2⟩) hsmall
    -- the parent was there before, so it is none of the new blocks
    have hpnew : daToDb parent ∉ blocks db n := fun hmem => by simp [(hnew _ hmem).2] at hyr
    have hfinal := h₁.allocateAll (p := daToDb parent) (y := y.kin) (blocks db n)
      List.nodup_range' (fun b hb => ⟨by rw [hkin]; exact if_pos hb, by simp [hb]⟩)
      (by rw [hkin]; exact (if_neg hpnew).trans (Reg.kin_of hyr)) hpnew
      fun hm => ⟨(hmeta hm).1, (hmeta hm).2 y hy⟩
    convert hfinal using 2 with b
    by_cases hb : b ∈ blocks db n
    · simp [hb]
    · simp [hb]
  · exact .inr herr

theorem Machine.Good.step {s s' : Machine} {e : Event} (h : s.Good) (hs : e.Sound s)
    (hstep : s.step e s') : s'.Good := by
  cases e with
  | allocate db td parent mem =>
    obtain ⟨rr, ha, hr⟩ := map_eq_some_iff.mp hstep
    obtain ⟨res, r⟩ := rr
    rcases Ordered.alloc h hs.1 hs.2 ha with ⟨rfl, hgood⟩ | ⟨e, rfl, rfl⟩
    · cases hr
      exact hgood
    · cases hr
      exact h
  | complete db n =>
    cases hstep
    refine h.postIo (blocks db n) fun b hb c he => ?_
    obtain ⟨x, hx, _⟩ := Ordered.source h he
    obtain ⟨y, hy, rfl⟩ := map_eq_some_iff.mp hx
    have hb0 : b ≠ 0 := fun h0 => by simp [h0, h.pos] at hx
    have hl : xrLookup s.reg b = some y := by simp [xrLookup, hb0, hy]
    exact (h.canWrite hx).mp (hs b hb y hl) c he
  | flush db n =>
    cases hstep
    refine h.flushAll (blocks db n) fun b hb hk => hs b hb ?_
    have hb0 : b ≠ 0 := fun h0 => by simp [h0, h.pos] at hk
    simpa [xrLookup, hb0, Reg.kin] using hk
  | free db n =>
    obtain ⟨rr, hd, hr⟩ := map_eq_some_iff.mp hstep
    cases hr
    exact h.deleteAll (blocks db n) hd

/-- **A pointer is written after what it points to, and no block waits for ever.** After
    any sequence of sound events `rules_can_write` accepts a block if and only if all
    metadata that the block points to has been written since it was allocated. -/
theorem write_order {s₀ s : Machine} (h0 : s₀.Start)
    (h : Run.Reaches Machine.step (fun s e => e.Sound s) s₀ s) {p : Db} {x : Xr}
    (hx : xrLookup s.reg p = some x) :
    rulesCanWrite s.reg.deps p x = .ok () ↔ ∀ n, s.PointsTo p n → s.onDisk n = true := by
  have hgood : s.Good := h.invariant h0.good fun _ _ _ hinv hok hstep => hinv.step hok hstep
  rw [Ordered.canWrite hgood (Reg.kin_of (xrLookup_some hx).2)]
  constructor
  · rintro hout n ⟨y, hy, hm, hsec⟩
    by_contra hd
    exact hout (dbToSec n) ((hgood.edges _ _).mpr
      ⟨p, n, y.kin, rfl, rfl, Reg.kin_of hy, hm, hsec, by simpa using hd⟩)
  · intro hall c he
    obtain ⟨q, n, z, hq, _, hz, hm, hsec, hd⟩ := (hgood.edges _ _).mp he
    obtain ⟨y, hy, rfl⟩ := map_eq_some_iff.mp hz
    have hon := hall n ⟨y, hy, hm, hsec.trans hq.symm⟩
    simp [hon] at hd

/-! ## 6. Fixed runs

Block 1 holds a metadata object of one block, all of the disk is written, and objects are
allocated below the first word of block 1. -/

/-- A metadata object of `bytes` bytes. -/
def metaTd (bytes : Nat) : Td := { type := 10, base := 0, nelem := 1, size := bytes }

def rootMachine : Machine where
  reg := { xr := update (fun _ => none) 1 (some (xrNew (metaTd 4096) 0 0))
           deps := Deps.empty
           used := fun _ => true }
  onDisk := fun _ => true

/-- The state after the events, unless the kernel stops. -/
def Machine.after (s : Machine) : List Event → Option Machine
  | [] => some s
  | e :: es => (e.exec s).bind (·.after es)

/-- What `rules_can_write` says of block 1 after the events, and whether blocks 2 and 3
    have been written. -/
def rootAfter (es : List Event) : Option (Except XnErr Unit × Bool × Bool) := do
  let s ← rootMachine.after es
  let x ← xrLookup s.reg 1
  return (rulesCanWrite s.reg.deps 1 x, s.onDisk 2, s.onDisk 3)

/-- Allocate an object of `bytes` bytes at block 2, below the first word of block 1. -/
def allocateBelow (bytes : Nat) : Event := .allocate 2 (metaTd bytes) blockBytes fun _ => true

/-- After an object of two blocks is allocated and both are written, its parent still
    waits. An object of half a block is not waited for at all, and neither is a block
    that is flushed before it was written. -/
theorem parent_waits_or_does_not :
    rootAfter [allocateBelow 8192, .complete 2 1, .complete 3 1]
      = some (.error .tainted, true, true) ∧
    rootAfter [allocateBelow 2048] = some (.ok (), false, true) ∧
    rootAfter [allocateBelow 4096, .flush 2 1] = some (.ok (), false, true) := by
  decide +kernel

/-- The machine after one block of metadata was allocated. -/
def childMachine : Machine := ((allocateBelow 4096).exec rootMachine).getD rootMachine

theorem rootMachine_start : rootMachine.Start := by
  refine ⟨rfl, rfl, fun b x hx => ?_, fun _ => rfl⟩
  by_cases hb : b = 1
  · subst hb
    cases hx
    decide
  · simp [rootMachine, update_of_ne hb] at hx

/-- Block 1 waits for block 2. -/
theorem write_order_child :
    rulesCanWrite childMachine.reg.deps 1 (Xr.addKid 2 (xrNew (metaTd 4096) 0 0)) = .ok () ↔
      ∀ n, childMachine.PointsTo 1 n → childMachine.onDisk n = true := by
  have hstep : rootMachine.step (allocateBelow 4096) childMachine := rfl
  have hok : (allocateBelow 4096).Sound rootMachine := by
    refine ⟨by decide, fun _ => ⟨by decide, fun y hy => ?_⟩⟩
    cases hy
    decide
  have hrun : Run.Reaches Machine.step (fun s e => e.Sound s) rootMachine childMachine :=
    Run.Reaches.refl.call (i := allocateBelow 4096) hok hstep
  exact write_order rootMachine_start hrun rfl

end Exokernel.Xn
