import Exokernel.Proof.LinkUpdates
import Exokernel.Lib.Run

/-!
# Directory blocks stay well formed

In a well formed block the entries of each sector, found one behind the other from its beginning,
fill the 128 bytes for names exactly. `Tiled` says so from an offset on, in the shape in which the
server walks: an entry, and then the rest.

**A request changes a sector from one of its entries on.** What comes before that entry keeps its
bytes, so it is enough to see that the sector is tiled from the entry on (`Tiled.splice`), and that
is a statement about one or two entries and a rest that has moved nowhere.

The server does not refuse all that it should. It splits off less than an entry needs, copies a
name into whatever follows, and counts the same entry again and again when it merges.
`DirReq.Sound` is what a client has to keep to.
-/
set_option autoImplicit false

namespace Exokernel
namespace Cffs

open BitVec Nat

/-! ## 1. A sector and a walk over it -/

/-- From offset `i` of a sector on, entries fill the space for names. -/
inductive Tiled (s : Store Blk) (k : Blk) (sector : Nat) : Nat → Prop
  | done : Tiled s k sector 128
  | entry {i : Nat}
      (hlen : 32 ≤ entryLen s k (sector + i))
      (hname : entryType s k (sector + i) ≠ 0 →
        8 + nameLen s k (sector + i) ≤ entryLen s k (sector + i))
      (hprev : i + entryLen s k (sector + i) < 128 →
        preventryLen s k (sector + (i + entryLen s k (sector + i))) = s k (sector + i))
      (hrest : Tiled s k sector (i + entryLen s k (sector + i))) : Tiled s k sector i

/-- The walk from `i` comes to an entry at `j`. -/
inductive Reach (s : Store Blk) (k : Blk) (sector : Nat) : Nat → Nat → Prop
  | here {j : Nat} : Reach s k sector j j
  | next {i j : Nat} (hi : i < 128)
      (hrest : Reach s k sector (i + entryLen s k (sector + i)) j) : Reach s k sector i j

/-- A well formed directory block. -/
def DirBlockOk (s : Store Blk) (k : Blk) : Prop :=
  ∀ c, c < 8 → Tiled s k (c * 512) 0

section
variable {s t : Store Blk} {k : Blk} {c i j : Nat}

theorem Tiled.le (h : Tiled s k c i) : i ≤ 128 := by
  induction h with
  | done => exact le_refl _
  | entry _ _ _ _ ih => omega

/-- There is an entry wherever the space is not used up. -/
theorem Tiled.at (h : Tiled s k c i) (hi : i < 128) :
    32 ≤ entryLen s k (c + i) ∧
    i + entryLen s k (c + i) ≤ 128 ∧
    (entryType s k (c + i) ≠ 0 → 8 + nameLen s k (c + i) ≤ entryLen s k (c + i)) ∧
    Tiled s k c (i + entryLen s k (c + i)) := by
  cases h with
  | done => exact absurd hi (lt_irrefl _)
  | entry hlen hname _ hrest => exact ⟨hlen, hrest.le, hname, hrest⟩

theorem Reach.le (h : Reach s k c i j) : i ≤ j := by
  induction h with
  | here => exact le_refl _
  | next _ _ ih => omega

theorem Tiled.reach (h : Tiled s k c i) (hr : Reach s k c i j) : Tiled s k c j := by
  induction hr with
  | here => exact h
  | next hi _ ih => exact ih (h.at hi).2.2.2

theorem Tiled.cons {L : Nat} (hL : entryLen t k (c + j) = L) (hlen : 32 ≤ L)
    (hname : entryType t k (c + j) ≠ 0 → 8 + nameLen t k (c + j) ≤ L)
    (hprev : j + L < 128 → t k (c + j + L + 1) = t k (c + j)) (hrest : Tiled t k c (j + L)) :
    Tiled t k c j := by
  subst hL
  refine .entry hlen hname ?_ hrest
  intro hlt
  rw [preventryLen, ← add_assoc]
  exact hprev hlt

/-- Of the entry itself, the length of the one before it is not looked at. -/
theorem Tiled.congr (h : Tiled s k c i)
    (hs : ∀ a, c + i ≤ a → a < c + 128 → a ≠ c + i + 1 → t k a = s k a) :
    Tiled t k c i := by
  induction h with
  | done => exact .done
  | @entry i hlen hname hprev hrest ih =>
    have hle := hrest.le
    have h0 : t k (c + i) = s k (c + i) := hs _ (by omega) (by omega) (by omega)
    have h2 : t k (c + i + 2) = s k (c + i + 2) := hs _ (by omega) (by omega) (by omega)
    have h3 : t k (c + i + 3) = s k (c + i + 3) := hs _ (by omega) (by omega) (by omega)
    refine .cons (by rw [entryLen, h0, entryLen]) hlen ?_ (fun hlt => ?_) (ih fun a ha ha' _ => ?_)
    · rw [entryType, h2, nameLen, h3]
      exact hname
    · have hlast := (hrest.at hlt).1
      have hnext := (hrest.at hlt).2.1
      rw [hs _ (by omega) (by omega) (by omega), h0, add_assoc c]
      exact hprev hlt
    · exact hs a (by omega) ha' (by omega)

/-- An entry gets another type or name, in the space that it has. -/
theorem Tiled.head (h : Tiled s k c i) (hi : i < 128)
    (hlen : t k (c + i) = s k (c + i))
    (hname : entryType t k (c + i) ≠ 0 → 8 + nameLen t k (c + i) ≤ entryLen s k (c + i))
    (hs : ∀ a, c + i + entryLen s k (c + i) ≤ a → a < c + 128 → t k a = s k a) :
    Tiled t k c i := by
  cases h with
  | done => exact absurd hi (lt_irrefl _)
  | entry hl _ hprev hrest =>
    have hle := hrest.le
    refine .cons (by rw [entryLen, hlen, entryLen]) hl hname (fun hlt => ?_)
      (hrest.congr fun a ha ha' _ => hs a (by omega) ha')
    have hnext := (hrest.at hlt).2.1
    have hlast := (hrest.at hlt).1
    rw [hs _ (by omega) (by omega), hlen, add_assoc c]
    exact hprev hlt

/-- **A sector that changes from one of its entries on.** -/
theorem Tiled.splice (h : Tiled s k c i) (hr : Reach s k c i j)
    (hs : ∀ a, c + i ≤ a → a < c + j → t k a = s k a)
    (hp : j < 128 → t k (c + j + 1) = s k (c + j + 1)) (htail : Tiled t k c j) :
    Tiled t k c i := by
  induction hr with
  | here => exact htail
  | @next i j hi hrest ih =>
    cases h with
    | done => exact absurd hi (lt_irrefl _)
    | entry hlen hname hprev htiled =>
      have hij := hrest.le
      have h0 : t k (c + i) = s k (c + i) := hs _ (by omega) (by omega)
      have h2 : t k (c + i + 2) = s k (c + i + 2) := hs _ (by omega) (by omega)
      have h3 : t k (c + i + 3) = s k (c + i + 3) := hs _ (by omega) (by omega)
      refine .cons (by rw [entryLen, h0, entryLen]) hlen ?_ (fun hlt => ?_)
        (ih htiled (fun a ha ha' => hs a (by omega) ha') hp htail)
      · rw [entryType, h2, nameLen, h3]
        exact hname
      · rw [h0, ← hprev hlt, add_assoc c]
        -- the next entry is the changed one, or lies before it
        cases hrest with
        | here => exact hp hlt
        | next _ hmore =>
          have hnext := (htiled.at hlt).1
          have hle := hmore.le
          exact hs _ (by omega) (by omega)

end

/-! ## 2. The server's own walks end

Each is an induction over the tiling: a round of the loop is an entry. -/

section
variable {s : Store Blk} {k : Blk} {c i : Nat}

theorem place_of_off {j a : Nat} (hj : j < 128) (h : c * 512 + j = a) :
    a / 512 * 512 = c * 512 ∧ a % 512 = j := by omega

theorem isValidDirentLoop_spec {r : BcRef} (h : Tiled s r.blk c i) :
    ∀ n, 128 < i + n → ∃ b, isValidDirentLoop s r c n i = .ok b ∧
      (b = true → ∃ j, j < 128 ∧ Reach s r.blk c i j ∧ c + j = r.off) := by
  induction h with
  | done =>
    intro n hn
    obtain ⟨m, rfl⟩ := exists_eq_succ_of_ne_zero (show n ≠ 0 by omega)
    exact ⟨false, rfl, fun hb => by cases hb⟩
  | @entry i hlen _ _ hrest ih =>
    intro n hn
    have hle := hrest.le
    obtain ⟨m, rfl⟩ := exists_eq_succ_of_ne_zero (show n ≠ 0 by omega)
    have hi : ¬ 128 ≤ i := by omega
    rw [isValidDirentLoop, if_neg hi]
    by_cases heq : c + i = r.off
    · rw [if_pos heq]
      exact ⟨true, rfl, fun _ => ⟨i, by omega, .here, heq⟩⟩
    rw [if_neg heq]
    obtain ⟨b, hb, htrue⟩ := ih m (by omega)
    refine ⟨b, hb, fun hbt => ?_⟩
    obtain ⟨j, hj, hreach, hoff⟩ := htrue hbt
    exact ⟨j, hj, .next (by omega) hreach, hoff⟩

theorem isValidDirent_spec {r : BcRef} (h : DirBlockOk s r.blk) :
    ∃ b, isValidDirent s r = .ok b ∧
      (b = true → ∃ c j, c < 8 ∧ j < 128 ∧ Reach s r.blk (c * 512) 0 j ∧ c * 512 + j = r.off) := by
  have hoff : r.off.val < 4096 := r.off.isLt
  have hc : r.off.val / 512 < 8 := by omega
  obtain ⟨b, hb, htrue⟩ := isValidDirentLoop_spec (h _ hc) walkRounds (by decide)
  refine ⟨b, hb, fun hbt => ?_⟩
  obtain ⟨j, hj, hreach, heq⟩ := htrue hbt
  exact ⟨_, j, hc, hj, hreach, heq⟩

variable (name : Nat → BitVec 8) (namelen : Nat)

theorem sectorConflict_ends (h : Tiled s k c i) :
    ∀ n, 128 < i + n → ∃ b, sectorConflict s k name namelen c n i = .ok b := by
  induction h with
  | done =>
    intro n hn
    obtain ⟨m, rfl⟩ := exists_eq_succ_of_ne_zero (show n ≠ 0 by omega)
    exact ⟨false, rfl⟩
  | @entry i hlen _ _ hrest ih =>
    intro n hn
    have hle := hrest.le
    obtain ⟨m, rfl⟩ := exists_eq_succ_of_ne_zero (show n ≠ 0 by omega)
    have hi : ¬ 128 ≤ i := by omega
    rw [sectorConflict, if_neg hi]
    split
    · exact ⟨true, rfl⟩
    · exact ih m (by omega)

theorem nameconflict_ends (h : DirBlockOk s k) (n : Nat) :
    ∀ c, c + n ≤ 8 → ∃ b, nameconflict s k name namelen n (c * 512) = .ok b := by
  induction n with
  | zero =>
    intro c _
    exact ⟨false, rfl⟩
  | succ n ih =>
    intro c hc
    obtain ⟨b, hb⟩ := sectorConflict_ends name namelen (h c (by omega)) walkRounds (by decide)
    rw [nameconflict, hb]
    cases b with
    | true => exact ⟨true, rfl⟩
    | false =>
      obtain ⟨b', hb'⟩ := ih (c + 1) (by omega)
      rw [show (c + 1) * 512 = c * 512 + 512 by omega] at hb'
      exact ⟨b', hb'⟩

/-- The direct blocks of an inode are directory blocks. -/
def DirectOk (D : Set Blk) (s : Store Blk) (fsdev : BitVec 32) (d : BcRef) : Prop :=
  ∀ i, i < numDirect → directBlock s d i ≠ 0 → ⟨fsdev, directBlock s d i⟩ ∈ D

theorem isNameUnique_ends {D : Set Blk} {resident : Blk → Bool} {fsdev : BitVec 32} {d : BcRef}
    (hD : ∀ k ∈ D, DirBlockOk s k) (hdirect : DirectOk D s fsdev d) :
    ∃ b, isNameUnique resident s fsdev d name namelen = .ok b := by
  suffices hloop : ∀ n i, i + n ≤ numDirect →
      ∃ b, isNameUniqueLoop resident s fsdev d name namelen n i = .ok b from
    hloop numDirect 0 (le_refl _)
  intro n
  induction n with
  | zero =>
    intro i _
    exact ⟨true, rfl⟩
  | succ n ih =>
    intro i hi
    rw [isNameUniqueLoop]
    by_cases hz : directBlock s d i = 0
    · rw [if_pos hz]
      exact ih (i + 1) (by omega)
    rw [if_neg hz]
    have hk := hD _ (hdirect i (by omega) hz)
    split
    · obtain ⟨b, hb⟩ := nameconflict_ends name namelen hk 8 0 (by omega)
      rw [Nat.zero_mul] at hb
      rw [show blockSize / sectorSize = 8 from rfl, hb]
      cases b with
      | true => exact ⟨false, rfl⟩
      | false => exact ih (i + 1) (by omega)
    · exact ⟨false, rfl⟩

end

/-! ## 3. Splitting and merging -/

section
variable {s : Store Blk} {k : Blk} {c j : Nat}

def RestOf (k : Blk) (c j : Nat) (k' : Blk) (a : Nat) : Prop := k' = k ∧ c + j ≤ a ∧ a < c + 128

/-- What a change from an entry on has to come to. -/
structure Retiled (s t : Store Blk) (k : Blk) (c j : Nat) : Prop where
  tiled : Tiled t k c j
  prev : t k (c + j + 1) = s k (c + j + 1)
  only : Store.Touches s t (RestOf k c j)

theorem Retiled.refl (h : Tiled s k c j) : Retiled s s k c j :=
  ⟨h, rfl, .refl _ _⟩

theorem embdirentsize_le (n : Nat) : 8 + n ≤ embdirentsize n ∧ 32 ≤ embdirentsize n := by
  unfold embdirentsize
  split
  · rename_i h
    change n ≤ 24 at h
    change 8 + n ≤ 32 + 0 ∧ 32 ≤ 32 + 0
    omega
  · rename_i h
    change ¬ n ≤ 24 at h
    change 8 + n ≤ 32 + (n + 1 + 3 - 24) / 4 * 4 ∧ 32 ≤ 32 + (n + 1 + 3 - 24) / 4 * 4
    omega

theorem splitAt_other {a : Nat} {x : BitVec 8} {k' : Blk} {i : Nat} (hk : k' ≠ k) :
    (splitAt s k a x).2 k' i = s k' i := by
  unfold splitAt
  dsimp only
  split <;> split <;> simp [Store.st8_apply, hk]

theorem splitAt_apply (a : Nat) (x : BitVec 8) (new : Nat) (hnew : new = a + (s k a - x).toNat)
    (i : Nat) :
    (splitAt s k a x).2 k i =
      if (new + x.toNat) % 128 ≠ 0 ∧ i = new + x.toNat + 1 then x
      else if i = new + 8 ∨ i = new + 3 ∨ i = new + 2 then 0
      else if i = new then x
      else if i = a ∨ (i = new + 1 ∧ new ≠ a) then s k a - x
      else s k i := by
  unfold splitAt
  simp only [entryLen, Store.st8_self, ← hnew]
  by_cases hne : new = a
  · subst hne
    by_cases hmod : (new + x.toNat) % 128 = 0
    · simp [Store.st8_apply, hmod]
      grind
    · simp [Store.st8_apply, hmod]
      grind
  · by_cases hmod : (new + x.toNat) % 128 = 0
    · simp [Store.st8_apply, hmod, hne]
      grind
    · simp [Store.st8_apply, hmod, hne]
      grind

/-- Nothing is left of the first entry, or enough for an entry and its name. -/
theorem splitAt_retiled (h : Tiled s k c j) (hj : j < 128) (hc : c % 512 = 0) {x : BitVec 8}
    (hx : 32 ≤ x.toNat)
    (hfit : x = s k (c + j) ∨ (x.toNat + 32 ≤ entryLen s k (c + j) ∧
      (entryType s k (c + j) ≠ 0 →
        8 + nameLen s k (c + j) + x.toNat ≤ entryLen s k (c + j)))) :
    Retiled s (splitAt s k (c + j) x).2 k c j := by
  obtain ⟨hlen, hle, -, hrest⟩ := h.at hj
  generalize hL : entryLen s k (c + j) = L at *
  generalize hm : (s k (c + j) - x).toNat = m
  -- the two lengths
  have hsum : m + x.toNat = L ∧ (m = 0 ∨ (32 ≤ m ∧ (entryType s k (c + j) ≠ 0 →
      8 + nameLen s k (c + j) ≤ m))) := by
    unfold entryLen at hL
    rcases hfit with rfl | ⟨hfit, hname⟩
    · rw [sub_self] at hm
      change 0 = m at hm
      exact ⟨by omega, .inl hm.symm⟩
    · rw [toNat_sub_of_le (by rw [le_def]; omega)] at hm
      exact ⟨by omega, .inr ⟨by omega, fun hlive => by have := hname hlive; omega⟩⟩
  obtain ⟨hsum, hcase⟩ := hsum
  have happ := fun i => @splitAt_apply s k (c + j) x (c + j + m) (by rw [hm]) i
  rw [show c + j + m + x.toNat = c + j + L by omega] at happ
  generalize htdef : (splitAt s k (c + j) x).2 = t at happ
  have hroom : j + L < 128 → j + L + 32 ≤ 128 := by
    intro hlt
    have hnext := hrest.at hlt
    omega
  have hmod : (c + j + L) % 128 = 0 ↔ j + L = 128 := by omega
  -- the bytes that are stored, and the others
  have hfirst : m ≠ 0 → t k (c + j) = s k (c + j) - x := by
    intro hm0
    rw [happ, if_neg (by omega), if_neg (by omega), if_neg (by omega), if_pos (by omega)]
  have hsecond : t k (c + j + m) = x := by
    rw [happ, if_neg (by omega), if_neg (by omega), if_pos rfl]
  have hprev : m ≠ 0 → t k (c + j + m + 1) = s k (c + j) - x := by
    intro hm0
    rw [happ, if_neg (by omega), if_neg (by omega), if_neg (by omega), if_pos (by omega)]
  have hdead : t k (c + j + m + 2) = 0 := by
    rw [happ, if_neg (by omega), if_pos (by omega)]
  have hnext : j + L < 128 → t k (c + j + L + 1) = x := by
    intro hlt
    rw [happ, if_pos (by omega)]
  have hkept : ∀ i, i ≠ c + j → (i < c + j + m ∨ c + j + m + 8 < i ∨ (m = 0 ∧ i = c + j + 1)) →
      (j + L < 128 → i ≠ c + j + L + 1) → t k i = s k i := by
    intro i h1 h2 h3
    rw [happ, if_neg (by omega), if_neg (by omega), if_neg (by omega), if_neg (by omega)]
  have htail : Tiled t k c (j + L) := by
    apply hrest.congr
    intro a ha _ hne
    exact hkept a (by omega) (by omega) (by omega)
  have htiled : Tiled t k c (j + m) := by
    refine Tiled.cons (L := x.toNat) ?_ hx ?_ ?_ ?_
    · rw [entryLen, ← add_assoc, hsecond]
    · intro hlive
      rw [entryType, ← add_assoc] at hlive
      exact absurd hdead hlive
    · intro hlt
      rw [← add_assoc, hsecond, show c + j + m + x.toNat = c + j + L by omega]
      exact hnext (by omega)
    · rw [show j + m + x.toNat = j + L by omega]
      exact htail
  refine ⟨?_, ?_, ?_⟩
  · rcases hcase with rfl | ⟨hm32, hname⟩
    · exact htiled
    refine Tiled.cons (L := m) ?_ hm32 ?_ ?_ htiled
    · rw [entryLen, hfirst (by omega)]
      exact hm
    · rw [entryType, nameLen, hkept _ (by omega) (by omega) (by omega),
        hkept _ (by omega) (by omega) (by omega)]
      exact hname
    · intro _
      rw [hprev (by omega), hfirst (by omega)]
  · exact hkept _ (by omega) (by omega) (by omega)
  · intro k' a hout
    by_cases hk : k' = k
    · subst hk
      have hout : a < c + j ∨ c + 128 ≤ a := by
        by_contra hin
        exact hout ⟨rfl, by omega, by omega⟩
      exact hkept a (by omega) (by omega) (by omega)
    · rw [← htdef]
      exact splitAt_other hk

/-- What may be split off: at least an entry, and of a dead entry all or what leaves one. The
    server looks only whether there is room. -/
def SplitSound (s : Store Blk) (k : Blk) (a : Nat) (splitspace : BitVec 32) : Prop :=
  splitspace = 0 ∨ extraspace s k a < 32 ∨ extraspace s k a < splitspace.toInt ∨
  (32 ≤ splitspace.toInt ∧ (entryType s k a = 0 →
    splitspace.toInt = entryLen s k a ∨ splitspace.toInt + 32 ≤ entryLen s k a))

theorem splitentry_retiled (h : Tiled s k c j) (hj : j < 128) (hc : c % 512 = 0)
    {splitspace : BitVec 32} (hsound : SplitSound s k (c + j) splitspace) :
    Retiled s (splitentry s k (c + j) splitspace).2 k c j := by
  unfold splitentry
  dsimp only
  split
  · exact .refl h
  rename_i hroom
  split
  · exact .refl h
  rename_i hne
  change ¬ (extraspace s k (c + j) < 32 ∨ _) at hroom
  have hsize := embdirentsize_le (nameLen s k (c + j))
  have hle := (h.at hj).2.1
  rcases hsound with hz | hsmall | hsmall | ⟨hmin, hdead⟩
  · exact absurd hz hne
  · exact absurd (.inl hsmall) hroom
  · exact absurd (.inr hsmall) hroom
  -- the number is small, so its byte is the number
  have hextra : extraspace s k (c + j) ≤ entryLen s k (c + j) := by
    unfold extraspace
    split
    · exact Int.le_refl _
    · omega
  have hbyte : ((splitspace.setWidth 8).toNat : Int) = splitspace.toInt := by
    rw [toNat_setWidth]
    have hnat : splitspace.toInt = splitspace.toNat := by
      rw [toInt_eq_toNat_cond] at hmin ⊢
      have := splitspace.isLt
      split at hmin
      · rw [if_pos (by assumption)]
      · omega
    omega
  apply splitAt_retiled h hj hc
  · omega
  by_cases hlive : entryType s k (c + j) = 0
  · rcases hdead hlive with hall | hsome
    · left
      apply eq_of_toNat_eq
      unfold entryLen at hall
      omega
    · right
      exact ⟨by omega, fun hl => absurd hlive hl⟩
  · right
    unfold extraspace at hroom
    rw [if_neg hlive] at hroom
    exact ⟨by omega, fun _ => by omega⟩

/-- What may be merged: the space up to an entry of the walk, or up to the end. The server counts
    the length of the next entry, dead by then, over and over. -/
def MergeSound (s : Store Blk) (k : Blk) (c j : Nat) (param2 : Nat) : Prop :=
  let next := j + entryLen s k (c + j)
  let len := entryLen s k (c + next)
  param2 = 0 ∨ entryType s k (c + next) ≠ 0 ∨
  (len ≠ 0 ∧ (¬ len ∣ param2 ∨ 128 - j + len ≤ param2 ∨ Reach s k c next (next + param2)))

theorem mergeLoop_dead (param2 maxleft : Nat) {a len : Nat} (hpos : len ≠ 0)
    (hdead : entryType s k (a + entryLen s k a) = 0)
    (hlen : entryLen s k (a + entryLen s k a) = len) :
    ∀ n e, 0 < n → maxleft < e + n → len ∣ e → e < maxleft + len →
      ∃ e', mergeLoop s k a param2 maxleft n e = .ok e' ∧ len ∣ e' ∧ e' < maxleft + len := by
  intro n
  induction n with
  | zero =>
    intro e hz
    exact absurd hz (lt_irrefl 0)
  | succ n ih =>
    intro e _ hn hdvd hlt
    rw [mergeLoop]
    split
    · rename_i hgo
      rw [if_neg (by rw [hdead]; simp), hlen]
      apply ih
      · omega
      · omega
      · exact Nat.dvd_add hdvd (Nat.dvd_refl len)
      · omega
    · exact ⟨e, rfl, hdvd, hlt⟩

/-- The loop ends, and it comes to the space that was asked for only where that may be merged. -/
theorem mergeLoop_spec (hj : j < 128) {param2 : Nat} (hsound : MergeSound s k c j param2) :
    ∃ e, mergeLoop s k (c + j) param2 (128 - j : Nat) walkRounds 0 = .ok e ∧
      (e = param2 → Reach s k c (j + entryLen s k (c + j)) (j + entryLen s k (c + j) + param2)) := by
  have hnext : c + j + entryLen s k (c + j) = c + (j + entryLen s k (c + j)) := by omega
  by_cases hp : param2 = 0
  · subst hp
    exact ⟨0, rfl, fun _ => .here⟩
  by_cases hlive : entryType s k (c + (j + entryLen s k (c + j))) = 0
  · rcases hsound with hz | hl | ⟨hlen, hcase⟩
    · exact absurd hz hp
    · exact absurd hlive hl
    obtain ⟨e, hloop, hdvd, hlt⟩ := mergeLoop_dead param2 (128 - j) hlen
      (by rw [hnext]; exact hlive) (by rw [hnext]) walkRounds 0 (by decide)
      (by change 128 - j < 0 + 129; omega) (dvd_zero _) (by omega)
    refine ⟨e, hloop, fun heq => ?_⟩
    subst heq
    rcases hcase with hnot | hfar | hreach
    · exact absurd hdvd hnot
    · omega
    · exact hreach
  · -- the next entry is live, and the loop stops at once
    refine ⟨0, ?_, fun heq => absurd heq.symm hp⟩
    change mergeLoop s k (c + j) param2 (128 - j : Nat) (128 + 1) 0 = .ok 0
    rw [mergeLoop, if_pos (by omega), hnext, if_pos hlive]

theorem mergeAt_apply (a : Nat) (x : BitVec 8) (next : Nat) (hnext : next = a + (s k a + x).toNat)
    (k' : Blk) (i : Nat) :
    mergeAt s k a x k' i =
      if next % 128 ≠ 0 ∧ k' = k ∧ i = next + 1 then s k a + x
      else if k' = k ∧ i = a then s k a + x
      else s k' i := by
  unfold mergeAt
  simp only [entryLen, Store.st8_self, ← hnext]
  by_cases hmod : next % 128 = 0
  · simp [Store.st8_apply, hmod]
  · simp [Store.st8_apply, hmod]

theorem mergeAt_retiled (h : Tiled s k c j) (hj : j < 128) (hc : c % 512 = 0) {p : Nat}
    (hr : Reach s k c (j + entryLen s k (c + j)) (j + entryLen s k (c + j) + p)) :
    Retiled s (mergeAt s k (c + j) (BitVec.ofNat 8 p)) k c j := by
  obtain ⟨hlen, -, hname, hrest⟩ := h.at hj
  have hend := hrest.reach hr
  have hle := hend.le
  generalize hL : entryLen s k (c + j) = L at *
  have hsum : (s k (c + j) + BitVec.ofNat 8 p).toNat = L + p := by
    unfold entryLen at hL
    rw [toNat_add, toNat_ofNat]
    omega
  have happ := @mergeAt_apply s k (c + j) (BitVec.ofNat 8 p) (c + j + (L + p)) (by rw [hsum])
  generalize mergeAt s k (c + j) (BitVec.ofNat 8 p) = t at happ
  have hroom : j + (L + p) < 128 → j + (L + p) + 32 ≤ 128 := by
    intro hlt
    have hnext := hend.at (by omega)
    omega
  have hfirst : t k (c + j) = s k (c + j) + BitVec.ofNat 8 p := by
    rw [happ, if_neg (by omega), if_pos ⟨rfl, rfl⟩]
  have hkept : ∀ k' i, (k' = k → i ≠ c + j) →
      (j + (L + p) < 128 → k' = k → i ≠ c + j + (L + p) + 1) → t k' i = s k' i := by
    intro k' i h1 h2
    rw [happ, if_neg, if_neg]
    · intro hki
      exact h1 hki.1 hki.2
    · intro hki
      exact h2 (by omega) hki.2.1 hki.2.2
  refine ⟨?_, hkept _ _ (by omega) (by omega), ?_⟩
  · refine Tiled.cons (L := L + p) ?_ (by omega) ?_ ?_ ?_
    · rw [entryLen, hfirst, hsum]
    · rw [entryType, nameLen, hkept _ _ (by omega) (by omega), hkept _ _ (by omega) (by omega)]
      intro hlive
      have hfits := hname hlive
      unfold nameLen at hfits
      omega
    · intro hlt
      rw [hfirst, happ, if_pos ⟨by omega, rfl, rfl⟩]
    · rw [← add_assoc]
      apply hend.congr
      intro a ha _ hne
      exact hkept _ _ (by omega) (by omega)
  · intro k' a hout
    apply hkept
    · intro hk ha
      exact hout ⟨hk, by omega, by omega⟩
    · intro hlt hk ha
      exact hout ⟨hk, by omega, by omega⟩

theorem mergeentry_retiled (h : Tiled s k c j) (hj : j < 128) (hc : c % 512 = 0)
    {param2 : BitVec 32} (hsound : MergeSound s k c j param2.toNat) :
    ∃ r t, mergeentry s k (c + j) param2 = .ok (r, t) ∧ Retiled s t k c j := by
  obtain ⟨e, hloop, hreach⟩ := mergeLoop_spec hj hsound
  have hleft : ((128 : Nat) : Int) - ((c + j) % 512 : Nat) = (128 - j : Nat) := by omega
  unfold mergeentry
  simp only [hleft, hloop]
  by_cases heq : e = param2.toNat
  · exact ⟨_, _, if_neg (by simp [heq]), mergeAt_retiled h hj hc (heq ▸ hreach heq)⟩
  · exact ⟨_, _, if_pos heq, .refl h⟩

/-! ## 4. A name, a number, a type -/

/-- The bytes of an entry other than its two lengths are stored into, and what is live fits. -/
theorem Retiled.ofHead {t : Store Blk} (h : Tiled s k c j) (hj : j < 128)
    (honly : Store.Touches s t fun k' a =>
      k' = k ∧ c + j + 2 ≤ a ∧ a < c + j + entryLen s k (c + j))
    (hname : entryType t k (c + j) ≠ 0 → 8 + nameLen t k (c + j) ≤ entryLen s k (c + j)) :
    Retiled s t k c j := by
  have hle := (h.at hj).2.1
  refine ⟨h.head hj (honly _ _ (by omega)) hname (fun a ha _ => honly _ _ (by omega)),
    honly _ _ (by omega), honly.mono ?_⟩
  intro k' a hin
  exact ⟨hin.1, by omega, by omega⟩

end

/-! ## 5. Requests -/

structure DirReq where
  resident : Blk → Bool
  copyin : Option (Nat → BitVec 8)
  action : DirectoryAction
  arg : DirectoryArg

def DirReq.exec (s : Store Blk) (q : DirReq) : Except Stop Answer :=
  servFsupdateDirectory q.resident q.copyin s q.action q.arg

/-- A reference into a directory block is to one of its inodes. -/
def DinodeRef (D : Set Blk) (r : BcRef) : Prop :=
  r.blk ∈ D → r.off.val % 128 = 0 ∧ r.off.val % 512 ≠ 0

/-- **What a request has to keep to**, in the state it is made in. `D` are the directory blocks. -/
def DirReq.Sound (D : Set Blk) (s : Store Blk) (q : DirReq) : Prop :=
  let k := q.arg.dirent.blk
  let a : Nat := q.arg.dirent.off
  k ∈ D ∧
  match q.action with
  | .initdirblock | .unknown => True
  | .splitentry => SplitSound s k a q.arg.param2
  | .mergeentry => MergeSound s k (a / 512 * 512) (a % 512) q.arg.param2.toNat
  | .setname =>
    (256 < q.arg.uintParam3.toNat ∨ 8 + q.arg.uintParam3.toNat ≤ entryLen s k a) ∧
    (entryType s k a ≠ 0 → DirectOk D s q.arg.param5 q.arg.refParam4)
  | .shiftentry => False
  | .setinodenum => entryType s k a ≠ 0 → inodeNum s k a ≠ 0 ∧
    q.resident q.arg.refParam3.blk = true ∧ q.resident q.arg.refParam4.blk = true ∧
    DinodeRef D q.arg.refParam3 ∧ DinodeRef D q.arg.refParam4
  | .settype =>
    q.resident q.arg.refParam3.blk = true ∧
    DinodeRef D q.arg.refParam3 ∧ DinodeRef D q.arg.refParam4 ∧
    (q.arg.param2 ≠ 0 → 8 + nameLen s k a ≤ entryLen s k a ∧
      DirectOk D s q.arg.param5 q.arg.refParam4) ∧
    (q.arg.param2 = 0 → isDir s q.arg.refParam3 = true →
      dirNum s q.arg.refParam3 = dinodeNum s q.arg.refParam4)

/-- The bytes of inodes that a request may store into: all of a block that is set up, all of an
    inode that is created, and the link counts of the two inodes that are passed. -/
def DirReq.dinodeTouched (s : Store Blk) (q : DirReq) (k : Blk) (a : Nat) : Prop :=
  match q.action with
  | .initdirblock => k = q.arg.dirent.blk
  | .setinodenum => linkBytes q.arg.refParam3 k a ∨ linkBytes q.arg.refParam4 k a
  | .settype =>
    (q.arg.param2 ≠ 0 ∧ dinodeNum s q.arg.refParam3 = 0 ∧ dinodeBytes q.arg.refParam3 k a) ∨
    linkBytes q.arg.refParam3 k a ∨ linkBytes q.arg.refParam4 k a
  | _ => False

/-- What the server promises about a request: the directory blocks are well formed after it, and
    the other bytes of inodes in them are as before. -/
structure DirStep (D : Set Blk) (s : Store Blk) (q : DirReq) (t : Store Blk) : Prop where
  blocks : ∀ k ∈ D, DirBlockOk t k
  dinodes : ∀ k ∈ D, ∀ a, 128 ≤ a % 512 → ¬ q.dinodeTouched s k a → t k a = s k a

section
variable {D : Set Blk} {s t : Store Blk} {q : DirReq} {k : Blk} {c j : Nat}

variable (h : ∀ k ∈ D, DirBlockOk s k)
include h

theorem DirStep.same : DirStep D s q s :=
  ⟨h, fun _ _ _ _ _ => rfl⟩

/-- One sector changes from an entry on, as far as names go. -/
theorem blocks_splice (hr : Reach s k (c * 512) 0 j)
    (hout : ∀ k' ∈ D, ∀ a, a % 512 < 128 → ¬ RestOf k (c * 512) j k' a → t k' a = s k' a)
    (hp : t k (c * 512 + j + 1) = s k (c * 512 + j + 1)) (htail : Tiled t k (c * 512) j) :
    ∀ k ∈ D, DirBlockOk t k := by
  intro k' hk' c' hc'
  have hold := h k' hk' c' hc'
  by_cases hhere : k' = k ∧ c' = c
  · obtain ⟨rfl, rfl⟩ := hhere
    have hj := htail.le
    refine hold.splice hr ?_ (fun _ => hp) htail
    intro a ha ha'
    refine hout k' hk' a (by omega) ?_
    rintro ⟨-, hlo, -⟩
    omega
  · apply hold.congr
    intro a ha ha' _
    refine hout k' hk' a (by omega) ?_
    rintro ⟨hk, hlo, hhi⟩
    apply hhere
    exact ⟨hk, by omega⟩

theorem DirStep.retiled (hr : Reach s k (c * 512) 0 j)
    (ht : Retiled s t k (c * 512) j) : DirStep D s q t where
  blocks := blocks_splice h hr (fun k' _ a _ hout => ht.only k' a hout) ht.prev ht.tiled
  dinodes k' _ a ha _ := by
    apply ht.only
    rintro ⟨-, hlo, hhi⟩
    omega

/-- The type and the number of an entry change, and inodes. -/
theorem DirStep.retyped {r : BcRef} (hk : r.blk ∈ D) (hc : c < 8)
    (hj : j < 128) (hr : Reach s r.blk (c * 512) 0 j) (hoff : c * 512 + j = r.off)
    (honly : Store.Touches s t fun k a => entryBytes r k a ∨ q.dinodeTouched s k a)
    (hdinode : ∀ k ∈ D, ∀ a, q.dinodeTouched s k a → 128 ≤ a % 512)
    (hname : entryType t r.blk r.off ≠ 0 → 8 + nameLen s r.blk r.off ≤ entryLen s r.blk r.off) :
    DirStep D s q t := by
  have htiled := (h _ hk c hc).reach hr
  have hle := (htiled.at hj).2.1
  have hmin := (htiled.at hj).1
  -- names that are not of this entry
  have hnames : ∀ k' ∈ D, ∀ a, a % 512 < 128 → ¬ entryBytes r k' a → t k' a = s k' a := by
    intro k' hk' a ha hne
    apply honly
    rintro (he | hd)
    · exact hne he
    · have := hdinode k' hk' a hd
      omega
  rw [← hoff] at hname
  refine ⟨blocks_splice h hr ?_ ?_ ?_, ?_⟩
  · intro k' hk' a ha hout
    apply hnames k' hk' a ha
    rintro ⟨hkk, hin⟩
    apply hout
    exact ⟨hkk, by omega, by omega⟩
  · apply hnames _ hk _ (by omega)
    rintro ⟨-, hin⟩
    omega
  · have hlen3 : t r.blk (c * 512 + j + 3) = s r.blk (c * 512 + j + 3) := by
      apply hnames _ hk _ (by omega)
      rintro ⟨-, hin⟩
      omega
    apply htiled.head hj
    · apply hnames _ hk _ (by omega)
      rintro ⟨-, hin⟩
      omega
    · rw [nameLen, hlen3]
      exact hname
    intro a ha ha'
    apply hnames _ hk _ (by omega)
    rintro ⟨-, hin⟩
    omega
  · intro k' hk' a ha hd
    apply honly
    rintro (⟨-, hin⟩ | hin)
    · omega
    · exact hd hin

end

/-! ## 6. One request -/

section
variable {s t : Store Blk} {k : Blk} {a : Nat}

theorem initSector_touches : Store.Touches s (initSector s k a) fun k' i => k' = k ∧ a ≤ i := by
  unfold initSector Store.st8 Store.st32
  apply Store.Touches.blit _ fun i hi _ => ⟨rfl, by omega⟩
  apply Store.Touches.blit _ fun i hi _ => ⟨rfl, by omega⟩
  apply Store.Touches.blit _ fun i hi _ => ⟨rfl, by omega⟩
  apply Store.Touches.blit _ fun i hi _ => ⟨rfl, by omega⟩
  apply Store.Touches.blit _ fun i hi _ => ⟨rfl, by omega⟩
  exact Store.Touches.blit (.refl _ _) fun i hi _ => ⟨rfl, by omega⟩

theorem initSectors_touches (n : Nat) : ∀ a s,
    Store.Touches s (initSectors k n a s) fun k' i => k' = k ∧ a ≤ i := by
  induction n with
  | zero =>
    intro a s
    exact .refl _ _
  | succ n ih =>
    intro a s
    apply initSector_touches.trans
    apply (ih (a + sectorSize) _).mono
    intro k' i h
    exact ⟨h.1, by have := h.2; omega⟩

theorem initSector_head : initSector s k a k a = 128 ∧ initSector s k a k (a + 2) = 0 := by
  unfold initSector Store.st32 dinodeSize
  constructor
  · rw [Store.blit_outside (by omega), Store.blit_outside (by omega), Store.blit_outside (by omega),
      Store.st8_apply, if_neg (by omega), Store.st8_self]
    rfl
  · rw [Store.blit_outside (by omega), Store.blit_outside (by omega), Store.blit_outside (by omega),
      Store.st8_apply, if_neg (by omega), Store.st8_apply, if_neg (by omega), Store.st8_self]

theorem initSectors_head (n : Nat) : ∀ c s i, c ≤ i → i < c + n →
    initSectors k n (c * 512) s k (i * 512) = 128 ∧
    initSectors k n (c * 512) s k (i * 512 + 2) = 0 := by
  induction n with
  | zero =>
    intro c s i hc hi
    omega
  | succ n ih =>
    intro c s i hc hi
    have hnext : c * 512 + sectorSize = (c + 1) * 512 := by
      change c * 512 + 512 = (c + 1) * 512
      omega
    by_cases heq : i = c
    · -- the sectors that follow leave this one alone
      subst heq
      rw [initSectors, initSectors_touches n _ _ k (i * 512) (by omega),
        initSectors_touches n _ _ k (i * 512 + 2) (by omega)]
      exact initSector_head
    · rw [initSectors, hnext]
      exact ih (c + 1) _ i (by omega) (by omega)

theorem initdirblock_ok : DirBlockOk (initSectors k 8 0 (s.zero k 0 blockSize)) k := by
  intro c hc
  obtain ⟨hlen, hdead⟩ := @initSectors_head k 8 0 (s.zero k 0 blockSize) c (zero_le c)
    (Nat.zero_add 8 ▸ hc)
  rw [Nat.zero_mul] at hlen hdead
  refine Tiled.cons (L := 128) ?_ (by omega) ?_ (fun h => absurd h (by omega)) ?_
  · rw [entryLen, add_zero, hlen]
    rfl
  · intro hlive
    exact absurd hdead hlive
  · rw [zero_add]
    exact .done

/-- Everything `CFFS_DIRECTORY_SETNAME` can come to. -/
theorem setname_ends {D : Set Blk} {resident : Blk → Bool} {arg : DirectoryArg}
    {copyin : Option (Nat → BitVec 8)} (hD : ∀ k ∈ D, DirBlockOk s k)
    (hdirect : entryType s arg.dirent.blk arg.dirent.off ≠ 0 →
      DirectOk D s arg.param5 arg.refParam4) :
    ∃ r t, setname resident s arg copyin = .ok (r, t) ∧
      (t = s ∨ (arg.uintParam3.toNat ≤ 256 ∧ ∃ name,
        t = (s.blit arg.dirent.blk (arg.dirent.off + 8) arg.uintParam3.toNat name).st8
          arg.dirent.blk (arg.dirent.off + 3) (BitVec.ofNat 8 arg.uintParam3.toNat))) := by
  unfold setname
  dsimp only
  split
  · exact ⟨_, _, rfl, .inl rfl⟩
  rename_i hlong
  cases copyin with
  | none => exact ⟨_, _, rfl, .inl rfl⟩
  | some name =>
    rcases translateAddress_cases resident arg.refParam4 with h4 | h4
    · rw [h4]
      dsimp only
      split
      · exact ⟨_, _, rfl, .inl rfl⟩
      by_cases hlive : entryType s arg.dirent.blk arg.dirent.off = 0
      · rw [if_neg (by simp [hlive])]
        exact ⟨_, _, rfl, .inr ⟨not_lt.mp hlong, name, rfl⟩⟩
      obtain ⟨b, hb⟩ := isNameUnique_ends name arg.uintParam3.toNat hD (hdirect hlive)
      rw [if_pos hlive, hb]
      cases b with
      | false => exact ⟨_, _, rfl, .inl rfl⟩
      | true => exact ⟨_, _, rfl, .inr ⟨not_lt.mp hlong, name, rfl⟩⟩
    · rw [h4]
      exact ⟨_, _, rfl, .inl rfl⟩

/-- A dead entry may name any inode. -/
theorem setnum_retiled {c j : Nat} (h : Tiled s k c j) (hj : j < 128)
    (hdead : entryType s k (c + j) = 0) (x : BitVec 32) :
    Retiled s (s.st32 k (c + j + 4) x) k c j := by
  have hmin := (h.at hj).1
  apply Retiled.ofHead h hj
  · exact Store.Touches.blit (.refl _ _) fun i hi hin => ⟨rfl, by omega, by omega⟩
  intro hl
  unfold entryType Store.st32 at hl
  rw [Store.blit_outside (by omega)] at hl
  exact absurd hdead hl

theorem setname_retiled {c j n : Nat} {name : Nat → BitVec 8} (h : Tiled s k c j) (hj : j < 128)
    (hn : 8 + n ≤ entryLen s k (c + j)) :
    Retiled s ((s.blit k (c + j + 8) n name).st8 k (c + j + 3) (BitVec.ofNat 8 n)) k c j := by
  have hle := (h.at hj).2.1
  apply Retiled.ofHead h hj
  · unfold Store.st8
    apply Store.Touches.blit _ fun i hi hin => ⟨rfl, by omega, by omega⟩
    exact Store.Touches.blit (.refl _ _) fun i hi hin => ⟨rfl, by omega, by omega⟩
  intro _
  rw [nameLen, Store.st8_self, toNat_ofNat]
  omega

end

section
variable {D : Set Blk} {s t : Store Blk} {q : DirReq}

/-- An inode of a directory block is not where the names are. -/
theorem DinodeRef.space {r : BcRef} (h : DinodeRef D r) {k : Blk} (hk : k ∈ D) {a : Nat}
    (ha : dinodeBytes r k a) : 128 ≤ a % 512 := by
  obtain ⟨rfl, hlo, hhi⟩ := ha
  obtain ⟨h128, h512⟩ := h hk
  omega

section
variable {resident : Blk → Bool} {copyin : Option (Nat → BitVec 8)} {arg : DirectoryArg}
  (h : ∀ k ∈ D, DirBlockOk s k)
include h

theorem initdirblock_step :
    DirStep D s ⟨resident, copyin, .initdirblock, arg⟩
      (initdirblock s arg.dirent.blk arg.dirent.off).2 := by
  unfold initdirblock
  split
  · exact .same h
  rename_i hstart
  have hzero : arg.dirent.off.val = 0 := by
    have hlt : arg.dirent.off.val < 4096 := arg.dirent.off.isLt
    change ¬ arg.dirent.off.val % 4096 ≠ 0 at hstart
    omega
  rw [hzero]
  have hother : ∀ k a, k ≠ arg.dirent.blk →
      initSectors arg.dirent.blk 8 0 (s.zero arg.dirent.blk 0 blockSize) k a = s k a := by
    intro k a hne
    rw [initSectors_touches 8 0 _ k a fun hin => hne hin.1]
    exact Store.blit_outside fun heq => absurd heq hne
  refine ⟨fun k hk c hc => ?_, fun k hk a _ hd => hother k a hd⟩
  by_cases heq : k = arg.dirent.blk
  · subst heq
    exact initdirblock_ok c hc
  apply (h k hk c hc).congr
  intro a _ _ _
  exact hother k a heq

variable {c j : Nat} (hc : c < 8) (hj : j < 128) (hr : Reach s arg.dirent.blk (c * 512) 0 j)
  (hoff : c * 512 + j = arg.dirent.off)
include hc hj hr hoff

theorem setinodenum_step (hsound : DirReq.Sound D s ⟨resident, copyin, .setinodenum, arg⟩) :
    ∃ r t, setinodenum resident s arg = .ok (r, t) ∧
      DirStep D s ⟨resident, copyin, .setinodenum, arg⟩ t := by
  obtain ⟨hk, hlive⟩ := hsound
  dsimp only at hk hlive
  have htiled := (h _ hk c hc).reach hr
  have hfits := (htiled.at hj).2.2.1
  obtain ⟨⟨r, t⟩, hret, hcase⟩ := setinodenum_ends.exists_ok (x := setinodenum resident s arg) <| by
    rintro e ⟨hl, hno⟩
    obtain ⟨hnum, h3, h4, -⟩ := hlive hl
    exact hnum (by simpa [h3, h4] using hno)
  refine ⟨r, t, hret, ?_⟩
  rcases hcase with ⟨rfl, -⟩ | ⟨hdead, rfl⟩ | ⟨hl, -, -, -, -, rfl⟩
  · exact .same h
  · rw [← hoff] at hdead ⊢
    exact .retiled h hr (setnum_retiled htiled hj hdead _)
  obtain ⟨-, -, -, h3, h4⟩ := hlive hl
  rw [hoff] at hfits
  refine DirStep.retyped h hk hc hj hr hoff ?_ ?_ (fun _ => hfits hl)
  · exact touches_relink (fun _ _ he => .inl he) (fun _ _ hb => .inr (.inl hb))
      (fun _ _ hb => .inr (.inr hb))
  intro k hkD a hb
  rcases hb with hb | hb
  · exact h3.space hkD hb.dinode
  · exact h4.space hkD hb.dinode

theorem settype_step (hsound : DirReq.Sound D s ⟨resident, copyin, .settype, arg⟩) :
    ∃ r t, settype resident s arg = .ok (r, t) ∧
      DirStep D s ⟨resident, copyin, .settype, arg⟩ t := by
  obtain ⟨hk, hres, h3, h4, hlink, hunlink⟩ := hsound
  dsimp only at hk hres h3 h4 hlink hunlink
  have htiled := (h _ hk c hc).reach hr
  have hfits := (htiled.at hj).2.2.1
  rw [hoff] at hfits
  obtain ⟨⟨r, t⟩, hret, hcase⟩ := settype_ends.exists_ok (x := settype resident s arg) <| by
    rintro e (hno | ⟨hty, hno⟩ | ⟨hty, hdir, hno⟩)
    · rw [hres] at hno
      cases hno
    · obtain ⟨b, hb⟩ := isNameUnique_ends (entryName s arg.dirent.blk arg.dirent.off)
        (nameLen s arg.dirent.blk arg.dirent.off) h (hlink hty).2
      rw [hb] at hno
      cases hno
    · exact hno (hunlink hty hdir)
  refine ⟨r, t, hret, ?_⟩
  have hspace : ∀ k ∈ D, ∀ a,
      DirReq.dinodeTouched s ⟨resident, copyin, .settype, arg⟩ k a → 128 ≤ a % 512 := by
    intro k hkD a hb
    rcases hb with ⟨-, -, hb⟩ | hb | hb
    · exact h3.space hkD hb
    · exact h3.space hkD hb.dinode
    · exact h4.space hkD hb.dinode
  rcases hcase with rfl | ⟨hty, -, -, -, -, -, -, rfl⟩ |
    ⟨hty, -, -, hnum, -, rfl⟩ | ⟨-, hl, -, rfl⟩
  · exact .same h
  · refine DirStep.retyped h hk hc hj hr hoff ?_ hspace (fun _ => (hlink hty).1)
    exact touches_addLink (.refl _ _) (fun _ _ he => .inl he)
      (fun _ _ hb => .inr (.inr (.inl hb)))
  · refine DirStep.retyped h hk hc hj hr hoff ?_ hspace (fun _ => (hlink hty).1)
    apply touches_addLink _ (fun _ _ he => .inl he) fun _ _ hb => .inr (.inr (.inl hb))
    exact touches_createDinode (fun _ _ hb => .inr (.inl ⟨hty, hnum, hb⟩))
      (fun _ _ hb => .inr (.inr (.inr hb)))
  · refine DirStep.retyped h hk hc hj hr hoff ?_ hspace (fun _ => hfits hl)
    exact touches_removeLink (fun _ _ he => .inl he)
      (fun _ _ hb => .inr (.inr (.inl hb))) (fun _ _ hb => .inr (.inr (.inr hb)))

end

/-- **One request** of a client that keeps to `Sound` returns, and does what the server
    promises. -/
theorem DirReq.step (h : ∀ k ∈ D, DirBlockOk s k) (hsound : q.Sound D s) :
    ∃ r t, q.exec s = .ok (r, t) ∧ DirStep D s q t := by
  obtain ⟨resident, copyin, action, arg⟩ := q
  have hk : arg.dirent.blk ∈ D := hsound.1
  unfold DirReq.exec servFsupdateDirectory
  rcases translateAddress_cases resident arg.dirent with hd | hd
  case inr =>
    rw [hd]
    exact ⟨_, _, rfl, .same h⟩
  obtain ⟨b, hb, hvalid⟩ := isValidDirent_spec (h _ hk)
  simp only [hd, hb]
  cases b with
  | false => exact ⟨_, _, rfl, .same h⟩
  | true =>
    obtain ⟨c, j, hc, hj, hr, hoff⟩ := hvalid rfl
    have htiled := (h _ hk c hc).reach hr
    cases action with
    | initdirblock => exact ⟨_, _, rfl, initdirblock_step h⟩
    | splitentry =>
      have hsplit : SplitSound s arg.dirent.blk (c * 512 + j) arg.param2 := by
        rw [hoff]
        exact hsound.2
      refine ⟨_, _, rfl, ?_⟩
      rw [← hoff]
      exact .retiled h hr (splitentry_retiled htiled hj (by omega) hsplit)
    | setname =>
      obtain ⟨-, hlen, hdirect⟩ := hsound
      obtain ⟨r, t, hret, hcase⟩ := setname_ends h hdirect
      refine ⟨r, t, hret, ?_⟩
      rcases hcase with rfl | ⟨hlong, name, rfl⟩
      · exact .same h
      have hn := hlen.resolve_left (not_lt.mpr hlong)
      dsimp only at hn
      rw [← hoff] at hn ⊢
      exact .retiled h hr (setname_retiled htiled hj hn)
    | mergeentry =>
      have hmerge : MergeSound s arg.dirent.blk (c * 512) j arg.param2.toNat := by
        obtain ⟨hsector, hinside⟩ := place_of_off hj hoff
        rw [← hsector, ← hinside]
        exact hsound.2
      obtain ⟨r, t, hret, ht⟩ := mergeentry_retiled htiled hj (by omega) hmerge
      rw [hoff] at hret
      exact ⟨r, t, hret, .retiled h hr ht⟩
    | shiftentry => exact absurd hsound.2 id
    | setinodenum => exact setinodenum_step h hc hj hr hoff hsound
    | settype => exact settype_step h hc hj hr hoff hsound
    | unknown => exact ⟨_, _, rfl, .same h⟩

end

/-! ## 7. Runs -/

def DirReq.Does (s : Store Blk) (q : DirReq) (t : Store Blk) : Prop :=
  ∃ r, q.exec s = .ok (r, t)

/-- **In every run of requests that keep to `Sound`** the directory blocks are well formed, and the
    next such request returns and leaves inodes alone but for what it is to change. -/
theorem dir_blocks_well_formed {D : Set Blk} {s t : Store Blk} (h0 : ∀ k ∈ D, DirBlockOk s k)
    (hrun : Run.Reaches DirReq.Does (fun s q => q.Sound D s) s t) :
    (∀ k ∈ D, DirBlockOk t k) ∧
    ∀ q : DirReq, q.Sound D t → ∃ r u, q.exec t = .ok (r, u) ∧ DirStep D t q u := by
  have ht : ∀ k ∈ D, DirBlockOk t k := by
    apply hrun.invariant h0
    intro s q t hs hsound hdoes
    obtain ⟨r, u, hexec, hstep⟩ := DirReq.step hs hsound
    cases hdoes with
    | intro r' hexec' =>
      rw [hexec] at hexec'
      cases hexec'
      exact hstep.blocks
  exact ⟨ht, fun q hq => DirReq.step ht hq⟩

/-! A directory block with one file in its first sector, and empty sectors. -/

def demoBlk : Blk := ⟨0, 0⟩

def demoDir : Store Blk := fun k a =>
  if k = demoBlk then
    match a with
    | 2 => 0x80
    | 3 | 4 => 1
    -- its inode: number, type, links
    | 128 => 1
    | 141 => 0x80
    | 152 => 1
    | a => if a % 512 = 0 then 128 else 0
  else 0

theorem demoDir_ok : ∀ k ∈ ({demoBlk} : Set Blk), DirBlockOk demoDir k := by
  intro k hk c hc
  cases hk
  have hend : Tiled demoDir demoBlk (c * 512) (0 + 128) := .done
  interval_cases c
  all_goals exact Tiled.cons (L := 128) (by decide) (by decide) (by decide) (by decide) hend

/-- A request about an entry of that block, with everything in the cache. -/
def demoReq (action : DirectoryAction) (off : Fin blockSize) (param2 : BitVec 32) : DirReq where
  resident _ := true
  copyin := none
  action := action
  arg := { dirent := ⟨demoBlk, off⟩, param2 := param2, refParam3 := ⟨demoBlk, 128⟩
           refParam4 := ⟨demoBlk, 256⟩, uintParam3 := 0, param5 := 0 }

def afterReq (s : Store Blk) (q : DirReq) : Store Blk :=
  match q.exec s with
  | .ok (_, t) => t
  | .error _ => s

def grants (s : Store Blk) (q : DirReq) : Bool :=
  match q.exec s with
  | .ok (.ok _, _) => true
  | _ => false

theorem does_of_grants {s : Store Blk} {q : DirReq} (h : grants s q = true) :
    q.Does s (afterReq s q) := by
  unfold grants at h
  unfold DirReq.Does afterReq
  split at h
  · rename_i r t hexec
    rw [hexec]
    exact ⟨.ok r, rfl⟩
  · cases h

theorem dir_blocks_after_split :
    (∀ k ∈ ({demoBlk} : Set Blk), DirBlockOk demoDir k) ∧
    entryLen (afterReq demoDir (demoReq .splitentry 512 64)) demoBlk 512 = 64 ∧
    ∀ k ∈ ({demoBlk} : Set Blk),
      DirBlockOk (afterReq demoDir (demoReq .splitentry 512 64)) k := by
  have hsound : (demoReq .splitentry 512 64).Sound {demoBlk} demoDir := by
    refine ⟨rfl, .inr (.inr (.inr ?_))⟩
    decide
  refine ⟨demoDir_ok, by decide, ?_⟩
  exact (dir_blocks_well_formed demoDir_ok
    (Run.Reaches.refl.call hsound (does_of_grants (by decide)))).1

/-- **A single byte is split off**, which is no entry. -/
theorem split_one_byte :
    DirBlockOk demoDir demoBlk ∧ grants demoDir (demoReq .splitentry 512 1) = true ∧
    ¬DirBlockOk (afterReq demoDir (demoReq .splitentry 512 1)) demoBlk := by
  refine ⟨demoDir_ok demoBlk rfl, by decide, fun h => ?_⟩
  obtain ⟨-, -, -, hrest⟩ := (h 1 (by decide)).at (by decide)
  obtain ⟨hlen, -⟩ := hrest.at (by decide)
  exact absurd hlen (by decide)

end Cffs
end Exokernel
