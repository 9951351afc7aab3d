import Exokernel.Proof.DirBlocks
import Exokernel.Lib.Tally

/-!
# Link counts

An inode counts its names. A directory also counts itself and each directory in it. What is
counted lies in directory blocks all over the file system, and the server adjusts the counts one
at a time, in inodes that the client points it to.

Neither of the two requests changes the length of an entry, so the entries stay where they are for
a whole run (`entries_congr`), and **each request changes what one of them stands for**. The count
that an inode should have moves by what that entry is worth to it before and after
(`linkSum_change`), and the rest is to compare this with what the server does to the inode.

The server compares a reference with the entry in part only. It takes an inode that is not in use
for the one that an entry to be removed names, any directory for the parent of an entry, and a
number that is already an inode's for a new one.
-/
set_option autoImplicit false

namespace Exokernel
namespace Cffs

open List BitVec Nat

/-! ## 1. The entries of a file system -/

/-- The directory blocks and the inodes of a file system. Inodes are aligned, and the ones in
    directory blocks are not where the names are. -/
structure Fs where
  dirs : List Blk
  slots : Set BcRef
  nodup : dirs.Nodup
  aligned : ∀ x ∈ slots, x.off.val % 128 = 0
  outside : ∀ x ∈ slots, x.blk ∈ dirs → x.off.val % 512 ≠ 0

/-- A block and an offset in it. -/
abbrev Place := Blk × Nat

/-- The offsets of the entries of a sector, from one on. -/
def sectorEntries (s : Store Blk) (k : Blk) (sector : Nat) : Nat → Nat → List Nat
  | 0, _ => []
  | n + 1, i =>
    if 128 ≤ i then []
    else (sector + i) :: sectorEntries s k sector n (i + entryLen s k (sector + i))

def blockEntries (s : Store Blk) (k : Blk) : List Place :=
  (List.range 8).flatMap fun c => (sectorEntries s k (c * 512) walkRounds 0).map fun a => (k, a)

def entries (fs : Fs) (s : Store Blk) : List Place := fs.dirs.flatMap (blockEntries s)

/-- From an offset on, entries of at least the size of a header fill the space for names. -/
inductive Laid (s : Store Blk) (k : Blk) (sector : Nat) : Nat → Prop
  | done : Laid s k sector 128
  | entry {i : Nat} (hlen : 32 ≤ entryLen s k (sector + i))
      (hrest : Laid s k sector (i + entryLen s k (sector + i))) : Laid s k sector i

def Fs.LaidOut (fs : Fs) (s : Store Blk) : Prop :=
  ∀ k ∈ fs.dirs, ∀ c, c < 8 → Laid s k (c * 512) 0

section
variable {s t : Store Blk} {k : Blk} {c i n : Nat}

theorem Laid.le (h : Laid s k c i) : i ≤ 128 := by
  induction h with
  | done => exact le_refl _
  | entry _ _ ih => omega

/-- Whatever the server takes for an entry is in the list. -/
theorem mem_sectorEntries_of_valid {r : BcRef} (n : Nat) : ∀ i,
    isValidDirentLoop s r c n i = .ok true → r.off.val ∈ sectorEntries s r.blk c n i := by
  induction n with
  | zero =>
    intro i h
    cases h
  | succ n ih =>
    intro i h
    rw [isValidDirentLoop] at h
    rw [sectorEntries]
    split at h
    · cases h
    rename_i hi
    rw [if_neg hi]
    split at h
    · rename_i heq
      rw [heq]
      exact mem_cons_self
    · exact mem_cons_of_mem _ (ih _ h)

theorem sectorEntries_congr (n : Nat) : ∀ i,
    (∀ a ∈ sectorEntries s k c n i, t k a = s k a) →
    sectorEntries t k c n i = sectorEntries s k c n i := by
  induction n with
  | zero =>
    intro i _
    rfl
  | succ n ih =>
    intro i h
    rw [sectorEntries] at h ⊢
    rw [sectorEntries]
    split at h
    · rename_i hi
      rw [if_pos hi, if_pos hi]
    rename_i hi
    have hlen : entryLen t k (c + i) = entryLen s k (c + i) := by
      rw [entryLen, h _ mem_cons_self, entryLen]
    rw [hlen, ih _ fun a ha => h a (mem_cons_of_mem _ ha)]

theorem sectorEntries_space (h : Laid s k c i) :
    ∀ n, ∀ a ∈ sectorEntries s k c n i, c + i ≤ a ∧ a + 32 ≤ c + 128 := by
  induction h with
  | done =>
    intro n a ha
    cases n with
    | zero => cases ha
    | succ n => cases ha
  | @entry i hlen hrest ih =>
    intro n a ha
    have hle := hrest.le
    cases n with
    | zero => cases ha
    | succ n =>
      rw [sectorEntries, if_neg (by omega)] at ha
      cases ha with
      | head => omega
      | tail _ ha =>
        have hspace := ih n a ha
        omega

theorem sectorEntries_apart (h : Laid s k c i) :
    ∀ n, (sectorEntries s k c n i).Pairwise fun a b => a + 32 ≤ b := by
  induction h with
  | done =>
    intro n
    cases n with
    | zero => exact .nil
    | succ n => exact .nil
  | @entry i hlen hrest ih =>
    intro n
    cases n with
    | zero => exact .nil
    | succ n =>
      have hle := hrest.le
      rw [sectorEntries, if_neg (by omega)]
      refine .cons ?_ (ih n)
      intro a ha
      have hspace := sectorEntries_space hrest n a ha
      omega

end

section
variable {fs : Fs} {s t : Store Blk}

theorem mem_blockEntries {k : Blk} {e : Place} :
    e ∈ blockEntries s k ↔ e.1 = k ∧ ∃ c, c < 8 ∧ e.2 ∈ sectorEntries s k (c * 512) walkRounds 0 := by
  unfold blockEntries
  simp only [mem_flatMap, mem_range, mem_map]
  constructor
  · rintro ⟨c, hc, a, ha, rfl⟩
    exact ⟨rfl, c, hc, ha⟩
  · rintro ⟨rfl, c, hc, ha⟩
    exact ⟨c, hc, e.2, ha, rfl⟩

theorem mem_entries {e : Place} :
    e ∈ entries fs s ↔ e.1 ∈ fs.dirs ∧ ∃ c, c < 8 ∧
      e.2 ∈ sectorEntries s e.1 (c * 512) walkRounds 0 := by
  simp [entries, mem_blockEntries]

theorem mem_entries_of_valid {r : BcRef} (hk : r.blk ∈ fs.dirs)
    (h : isValidDirent s r = .ok true) : (r.blk, r.off.val) ∈ entries fs s := by
  rw [mem_entries]
  have hlt : r.off.val < 4096 := r.off.isLt
  exact ⟨hk, r.off.val / 512, by omega, mem_sectorEntries_of_valid walkRounds 0 h⟩

theorem entries_congr (h : ∀ e ∈ entries fs s, t e.1 e.2 = s e.1 e.2) :
    entries fs t = entries fs s := by
  have hsector : ∀ k ∈ fs.dirs, ∀ c, c < 8 →
      sectorEntries t k (c * 512) walkRounds 0 = sectorEntries s k (c * 512) walkRounds 0 := by
    intro k hk c hc
    apply sectorEntries_congr
    intro a ha
    exact h (k, a) (mem_entries.mpr ⟨hk, c, hc, ha⟩)
  apply flatMap_congr
  intro k hk
  apply flatMap_congr
  intro c hc
  rw [hsector k hk c (mem_range.mp hc)]

/-- What the layout of the entries gives. -/
structure Spaced (fs : Fs) (E : List Place) : Prop where
  nodup : E.Nodup
  dirs : ∀ e ∈ E, e.1 ∈ fs.dirs
  space : ∀ e ∈ E, e.2 % 512 + 32 ≤ 128
  apart : ∀ e ∈ E, ∀ e' ∈ E, e ≠ e' → e.1 = e'.1 → e.2 + 32 ≤ e'.2 ∨ e'.2 + 32 ≤ e.2

theorem entries_apart (h : fs.LaidOut s) : ∀ e ∈ entries fs s, ∀ e' ∈ entries fs s, e ≠ e' →
    e.1 = e'.1 → e.2 + 32 ≤ e'.2 ∨ e'.2 + 32 ≤ e.2 := by
  intro e he e' he' hne hblk
  obtain ⟨hk, c, hc, ha⟩ := mem_entries.mp he
  obtain ⟨hk', c', hc', ha'⟩ := mem_entries.mp he'
  rw [← hblk] at ha'
  have hlaid := h _ hk c hc
  have hs := sectorEntries_space hlaid _ _ ha
  have hs' := sectorEntries_space (h _ hk c' hc') _ _ ha'
  by_cases hcc : c = c'
  · subst hcc
    have hoff : e.2 ≠ e'.2 := fun heq => hne (Prod.ext hblk heq)
    have hsym : Std.Symm fun a b : Nat => a + 32 ≤ b ∨ b + 32 ≤ a := ⟨fun a b hab => hab.symm⟩
    have hpair := (sectorEntries_apart hlaid walkRounds).imp
      (S := fun a b => a + 32 ≤ b ∨ b + 32 ≤ a) fun hab => .inl hab
    exact hpair.forall ha ha' hoff
  · omega

theorem blockEntries_nodup {k : Blk} (h : ∀ c, c < 8 → Laid s k (c * 512) 0) :
    (blockEntries s k).Nodup := by
  unfold blockEntries
  rw [nodup_flatMap]
  constructor
  · intro c hc
    refine List.Nodup.map (fun a b hab => (Prod.mk.inj hab).2) ?_
    exact (sectorEntries_apart (h c (mem_range.mp hc)) walkRounds).imp fun hab => by omega
  -- sectors have no offset in common
  refine nodup_range.imp_of_mem fun {c c'} hc hc' hne => ?_
  rw [Function.onFun, disjoint_left]
  intro e he he'
  obtain ⟨a, ha, rfl⟩ := mem_map.mp he
  obtain ⟨a', ha', heq⟩ := mem_map.mp he'
  obtain rfl := (Prod.mk.inj heq).2
  have hs := sectorEntries_space (h c (mem_range.mp hc)) _ _ ha
  have hs' := sectorEntries_space (h c' (mem_range.mp hc')) _ _ ha'
  omega

theorem entries_spaced (h : fs.LaidOut s) : Spaced fs (entries fs s) where
  nodup := by
    unfold entries
    rw [nodup_flatMap]
    refine ⟨fun k hk => blockEntries_nodup (h k hk), fs.nodup.imp fun {k k'} hne => ?_⟩
    rw [Function.onFun, disjoint_left]
    intro e he he'
    exact hne ((mem_blockEntries.mp he).1.symm.trans (mem_blockEntries.mp he').1)
  dirs e he := (mem_entries.mp he).1
  space e he := by
    obtain ⟨hk, c, hc, ha⟩ := mem_entries.mp he
    have hs := sectorEntries_space (h _ hk c hc) _ _ ha
    omega
  apart := entries_apart h

end

/-! ## 2. Counts -/

/-- A live entry names an inode by its number. -/
def names (s : Store Blk) (num : BitVec 32) (e : Place) : Bool :=
  entryType s e.1 e.2 != 0 && inodeNum s e.1 e.2 == num

/-- A block is one of the direct blocks of an inode. Directories have no others. -/
def contains (s : Store Blk) (x : BcRef) (k : Blk) : Bool :=
  (List.range numDirect).any fun i => directBlock s x i != 0 && k == ⟨x.blk.dev, directBlock s x i⟩

/-- A live entry for a directory, in a block of an inode. -/
def dirIn (s : Store Blk) (x : BcRef) (e : Place) : Bool :=
  entryType s e.1 e.2 == 0x40 && contains s x e.1

/-- The count that an inode should have. -/
def linkSum (E : List Place) (s : Store Blk) (x : BcRef) : Nat :=
  E.countP (names s (dinodeNum s x)) + if isDir s x then 1 + E.countP (dirIn s x) else 0

/-- What one entry is worth to it. -/
def worth (s : Store Blk) (x : BcRef) (e : Place) : Nat :=
  (names s (dinodeNum s x) e).toNat + (isDir s x && dirIn s x e).toNat

/-- An inode is in use and of the type that an entry gives. -/
def Meant (s : Store Blk) (x : BcRef) (e : Place) : Prop :=
  dinodeNum s x ≠ 0 ∧ dinodeNum s x = inodeNum s e.1 e.2 ∧
  dinodeType s x = (entryType s e.1 e.2).setWidth 16 <<< 8

/-- **The invariant.** -/
structure LinksOk (fs : Fs) (E : List Place) (s : Store Blk) : Prop where
  count : ∀ x ∈ fs.slots, dinodeNum s x ≠ 0 → (linkCount s x).toInt = linkSum E s x
  live : ∀ e ∈ E, entryType s e.1 e.2 ≠ 0 → ∃ x ∈ fs.slots, Meant s x e

/-- Nothing about an inode but its link count has changed. -/
structure SameInode (s t : Store Blk) (x : BcRef) : Prop where
  num : dinodeNum t x = dinodeNum s x
  type : dinodeType t x = dinodeType s x
  direct : ∀ i, i < numDirect → directBlock t x i = directBlock s x i

/-- Nothing about an entry has changed. -/
structure SameEntry (s t : Store Blk) (e : Place) : Prop where
  type : entryType t e.1 e.2 = entryType s e.1 e.2
  num : inodeNum t e.1 e.2 = inodeNum s e.1 e.2

section
variable {fs : Fs} {E : List Place} {s t : Store Blk} {x : BcRef} {e : Place}

theorem SameInode.isDir (h : SameInode s t x) : isDir t x = isDir s x := by
  unfold Cffs.isDir
  rw [h.type]

theorem SameInode.contains (h : SameInode s t x) (k : Blk) : contains t x k = contains s x k := by
  unfold Cffs.contains
  rw [Bool.eq_iff_iff, any_eq_true, any_eq_true]
  constructor
  · rintro ⟨i, hi, hp⟩
    rw [h.direct i (mem_range.mp hi)] at hp
    exact ⟨i, hi, hp⟩
  rintro ⟨i, hi, hp⟩
  rw [← h.direct i (mem_range.mp hi)] at hp
  exact ⟨i, hi, hp⟩

theorem SameEntry.names (h : SameEntry s t e) (num : BitVec 32) : names t num e = names s num e := by
  unfold Cffs.names
  rw [h.type, h.num]

theorem SameEntry.dirIn (h : SameEntry s t e) (hx : SameInode s t x) : dirIn t x e = dirIn s x e := by
  unfold Cffs.dirIn
  rw [h.type, hx.contains]

/-- **One entry has changed.** -/
theorem linkSum_change (hE : E.Nodup) {e₀ : Place} (he₀ : e₀ ∈ E) (hx : SameInode s t x)
    (h : ∀ e ∈ E, e ≠ e₀ → SameEntry s t e) :
    linkSum E t x + worth s x e₀ = linkSum E s x + worth t x e₀ := by
  have hnames : E.countP (names t (dinodeNum s x)) + (names s (dinodeNum s x) e₀).toNat =
      E.countP (names s (dinodeNum s x)) + (names t (dinodeNum s x) e₀).toNat :=
    Tally.countP_change hE he₀ fun e he hne => (h e he hne).names _
  have hdirs : E.countP (dirIn t x) + (dirIn s x e₀).toNat =
      E.countP (dirIn s x) + (dirIn t x e₀).toNat :=
    Tally.countP_change hE he₀ fun e he hne => (h e he hne).dirIn hx
  unfold linkSum worth
  rw [hx.num, hx.isDir]
  cases isDir s x with
  | false =>
    simp only [Bool.false_and, Bool.toNat_false, Bool.false_eq_true, if_false]
    omega
  | true =>
    simp only [Bool.true_and, if_true]
    omega

theorem worth_le (he : e ∈ E) : worth s x e ≤ linkSum E s x := by
  have hle : ∀ p : Place → Bool, (p e).toNat ≤ E.countP p := by
    intro p
    cases hp : p e with
    | false => exact zero_le _
    | true => exact countP_pos_iff.mpr ⟨e, he, hp⟩
  have hn := hle (names s (dinodeNum s x))
  have hd := hle (dirIn s x)
  unfold worth linkSum
  cases isDir s x with
  | false =>
    simp only [Bool.false_and, Bool.toNat_false, Bool.false_eq_true, if_false]
    omega
  | true =>
    simp only [Bool.true_and, if_true]
    omega

/-- **The rule for a request.** Of the inodes, `fresh` has been set up anew, if any has. -/
theorem LinksOk.change (h : LinksOk fs E s) (hE : E.Nodup) {e₀ : Place} (he₀ : e₀ ∈ E)
    (fresh : BcRef → Prop)
    (hentry : ∀ e ∈ E, e ≠ e₀ → SameEntry s t e)
    (hinode : ∀ x ∈ fs.slots, ¬ fresh x → SameInode s t x)
    (hfree : ∀ x ∈ fs.slots, fresh x → dinodeNum s x = 0 ∧ (linkCount t x).toInt = linkSum E t x)
    (hcount : ∀ x ∈ fs.slots, ¬ fresh x → dinodeNum s x ≠ 0 →
      (linkCount t x).toInt + worth s x e₀ = (linkCount s x).toInt + worth t x e₀)
    (hlive : entryType t e₀.1 e₀.2 ≠ 0 → ∃ x ∈ fs.slots, Meant t x e₀) : LinksOk fs E t where
  count x hx hne := by
    by_cases hf : fresh x
    · exact (hfree x hx hf).2
    have hsame := hinode x hx hf
    rw [hsame.num] at hne
    have hs := h.count x hx hne
    have hc := hcount x hx hf hne
    have hsum := linkSum_change hE he₀ hsame hentry
    omega
  live e he hne := by
    by_cases heq : e = e₀
    · subst heq
      exact hlive hne
    have hsame := hentry e he heq
    rw [hsame.type] at hne
    obtain ⟨x, hx, hused, hnum, htype⟩ := h.live e he hne
    have hx' := hinode x hx fun hf => hused (hfree x hx hf).1
    refine ⟨x, hx, ?_, ?_, ?_⟩
    · rw [hx'.num]
      exact hused
    · rw [hx'.num, hsame.num]
      exact hnum
    · rw [hx'.type, hsame.type]
      exact htype

end

/-! ## 3. What a request leaves alone -/

/-- The type and the number of an entry, inodes as a whole, and link counts. -/
def touched (fs : Fs) (r : BcRef) (whole links : Set BcRef) (k : Blk) (a : Nat) : Prop :=
  entryBytes r k a ∨ (∃ d ∈ fs.slots, d ∈ whole ∧ dinodeBytes d k a) ∨
  ∃ d ∈ fs.slots, d ∈ links ∧ linkBytes d k a

section
variable {fs : Fs} {E : List Place} {s t : Store Blk} {r : BcRef} {whole links : Set BcRef}

variable {e : Place} {x : BcRef}

theorem slot_apart {y : BcRef} (hx : x ∈ fs.slots) (hy : y ∈ fs.slots) (hne : x ≠ y) :
    Store.Apart x.blk x.off 128 y.blk y.off 128 := by
  intro hblk
  have hoff : x.off.val ≠ y.off.val := by
    intro hoff
    apply hne
    cases x
    cases y
    simp_all [Fin.ext_iff]
  have hax := fs.aligned x hx
  have hay := fs.aligned y hy
  omega

theorem slot_entry (hE : Spaced fs E) (hx : x ∈ fs.slots) (he : e ∈ E) :
    Store.Apart x.blk x.off 128 e.1 e.2 32 := by
  intro hblk
  have hspace := hE.space e he
  have halign := fs.aligned x hx
  have hout := fs.outside x hx (hblk ▸ hE.dirs e he)
  omega

variable (hE : Spaced fs E) (he₀ : (r.blk, r.off.val) ∈ E)
  (h : Store.Touches s t (touched fs r whole links))
include hE he₀ h

/-- A piece of an inode that is not its link count, or the link count is left alone. -/
theorem touched_inode (hx : x ∈ fs.slots) (hw : x ∉ whole) {a n : Nat}
    (ha : x ∈ links → a + n ≤ 24 ∨ 26 ≤ a) (hn : a + n ≤ 128) :
    Store.Same s t x.blk (x.off + a) n := by
  apply h.same
  intro i hi hin htouch
  rcases htouch with ⟨hk, hb⟩ | ⟨d, hd, hdw, hk, hb⟩ | ⟨d, hd, hdl, hk, hb⟩
  · have := slot_entry hE hx he₀ hk
    omega
  · have hne : x ≠ d := fun heq => hw (heq ▸ hdw)
    have := slot_apart hx hd hne hk
    omega
  by_cases hxd : x = d
  · subst hxd
    have := ha hdl
    omega
  · have := slot_apart hx hd hxd hk
    omega

theorem sameInode_of_touched (hx : x ∈ fs.slots) (hw : x ∉ whole) :
    SameInode s t x where
  num := (touched_inode hE he₀ h hx hw (a := 0) (fun _ => by omega) (by omega)).ld32
  type := (touched_inode hE he₀ h hx hw (a := 12) (fun _ => by omega) (by omega)).ld16
  direct i hi := by
    change i < 15 at hi
    unfold directBlock
    rw [add_assoc]
    exact (touched_inode hE he₀ h hx hw (fun _ => by omega) (by omega)).ld32

theorem linkCount_of_touched (hx : x ∈ fs.slots) (hw : x ∉ whole) (hl : x ∉ links) :
    linkCount t x = linkCount s x :=
  (touched_inode hE he₀ h hx hw (fun hxl => absurd hxl hl) (by omega)).ld16

/-- The header of another entry, or the length of the one that is changed. -/
theorem touched_entry (he : e ∈ E) {a n : Nat} (hne : e = (r.blk, r.off.val) → a + n ≤ 2)
    (hn : a + n ≤ 32) : Store.Same s t e.1 (e.2 + a) n := by
  apply h.same
  intro i hi hin htouch
  rcases htouch with ⟨hk, hb⟩ | ⟨d, hd, -, hk, hb⟩ | ⟨d, hd, -, hk, hb⟩
  · by_cases heq : e = (r.blk, r.off.val)
    · have := hne heq
      subst heq
      dsimp only at hi
      omega
    · have hap := hE.apart e he _ he₀ heq hk
      omega
  · have := slot_entry hE hd he hk.symm
    omega
  · have := slot_entry hE hd he hk.symm
    omega

theorem sameEntry_of_touched (he : e ∈ E) (hne : e ≠ (r.blk, r.off.val)) :
    SameEntry s t e where
  type := (touched_entry hE he₀ h he (absurd · hne) (a := 2) (n := 1) (by omega)).byte (by omega)
  num := (touched_entry hE he₀ h he (absurd · hne) (a := 4) (by omega)).ld32

theorem len_of_touched (he : e ∈ E) : t e.1 e.2 = s e.1 e.2 :=
  (touched_entry hE he₀ h he (a := 0) (n := 1) (fun _ => by omega) (by omega)).byte (by omega)

end

/-! ## 4. Reading back -/

/-- The type of an entry is the upper byte of the type of its inode. -/
theorem type_high (b : BitVec 8) : ((b.setWidth 16 <<< 8) >>> 8).setWidth 8 = b := by
  apply eq_of_toNat_eq
  have hb := b.isLt
  simp only [toNat_setWidth, toNat_ushiftRight, toNat_shiftLeft, Nat.shiftLeft_eq, Nat.shiftRight_eq_div_pow]
  omega

theorem toInt_sub_one {x : BitVec 16} (h : 0 < x.toInt) : (x - 1).toInt = x.toInt - 1 := by
  have hx := x.isLt
  rw [toInt_eq_toNat_cond] at h ⊢
  rw [toInt_eq_toNat_cond, toNat_sub, show (1 : BitVec 16).toNat = 1 from rfl]
  split at h
  · rw [if_pos (by omega), if_pos (by omega)]
    omega
  · omega

theorem toInt_add_one {x : BitVec 16} (h : x ≠ 0x7fff) : (x + 1).toInt = x.toInt + 1 := by
  have hx := x.isLt
  have hne : x.toNat ≠ 32767 := fun heq => h (eq_of_toNat_eq heq)
  rw [toInt_eq_toNat_cond, toInt_eq_toNat_cond, toNat_add, show (1 : BitVec 16).toNat = 1 from rfl]
  split <;> split <;> omega

/-- What is stored into a new inode is the type that its entry gets. -/
theorem type_shift (p : BitVec 32) : (p <<< 8).setWidth 16 = (p.setWidth 8).setWidth 16 <<< 8 := by
  apply eq_of_toNat_eq
  have hp := p.isLt
  simp only [toNat_setWidth, toNat_shiftLeft, Nat.shiftLeft_eq]
  omega

section
variable {fs : Fs} {E : List Place} {s t : Store Blk} {x y : BcRef}

/-- Only a directory has the type that directories' entries have. -/
theorem isDir_eq {b : BitVec 8} (h : dinodeType s x = b.setWidth 16 <<< 8) :
    isDir s x = (b == 0x40) := by
  unfold isDir
  rw [h, Bool.eq_iff_iff, beq_iff_eq, beq_iff_eq]
  constructor
  · intro hb
    rw [← type_high b, hb]
    rfl
  · rintro rfl
    rfl

@[simp] theorem linkCount_setLinkCount_self (v : BitVec 16) :
    linkCount (setLinkCount s x v) x = v := Store.ld16_st16 v

theorem linkCount_setLinkCount_ne (hx : x ∈ fs.slots) (hy : y ∈ fs.slots) (hne : y ≠ x)
    (v : BitVec 16) : linkCount (setLinkCount s x v) y = linkCount s y := by
  unfold setLinkCount Store.st16
  apply Store.Same.ld16
  apply Store.blit_apart
  exact (slot_apart hx hy hne.symm).mono (by omega) (by omega) (by omega) (by omega)

theorem linkCount_inc (hx : x ∈ fs.slots) (hy : y ∈ fs.slots)
    (hmax : x = y → linkCount s x ≠ 0x7fff) :
    (linkCount (setLinkCount s y (linkCount s y + 1)) x).toInt =
      (linkCount s x).toInt + (decide (x = y)).toNat := by
  by_cases hxy : x = y
  · subst hxy
    rw [linkCount_setLinkCount_self, toInt_add_one (hmax rfl)]
    simp
  · rw [linkCount_setLinkCount_ne hy hx hxy]
    simp [hxy]

theorem linkCount_dec (hx : x ∈ fs.slots) (hy : y ∈ fs.slots)
    (hpos : (decide (x = y)).toNat ≤ (linkCount s x).toInt) :
    (linkCount (setLinkCount s y (linkCount s y - 1)) x).toInt =
      (linkCount s x).toInt - (decide (x = y)).toNat := by
  by_cases hxy : x = y
  · subst hxy
    rw [linkCount_setLinkCount_self, toInt_sub_one (by simp at hpos; omega)]
    simp
  · rw [linkCount_setLinkCount_ne hy hx hxy]
    simp [hxy]

theorem slot_blit (hE : Spaced fs E) (hx : x ∈ fs.slots) {e : Place} (he : e ∈ E) {a n c m : Nat}
    (hn : a + n ≤ 32) (hm : c + m ≤ 128) (src : Nat → BitVec 8) :
    Store.Same s (s.blit e.1 (e.2 + a) n src) x.blk (x.off + c) m :=
  Store.blit_apart ((slot_entry hE hx he).symm.mono (by omega) (by omega) (by omega) (by omega))

theorem linkCount_blit (hE : Spaced fs E) (hx : x ∈ fs.slots) {e : Place} (he : e ∈ E) {a n : Nat}
    (hn : a + n ≤ 32) (src : Nat → BitVec 8) :
    linkCount (s.blit e.1 (e.2 + a) n src) x = linkCount s x :=
  (slot_blit hE hx he hn (by omega) src).ld16

theorem dinodeType_setLinkCount (hx : x ∈ fs.slots) (hy : y ∈ fs.slots) (v : BitVec 16) :
    dinodeType (setLinkCount s x v) y = dinodeType s y := by
  unfold setLinkCount Store.st16
  apply Store.Same.ld16
  apply Store.blit_apart
  by_cases hne : x = y
  · subst hne
    intro _
    omega
  · exact (slot_apart hx hy hne).mono (by omega) (by omega) (by omega) (by omega)

/-- The inode at a reference is the only one with its number. -/
def Only (fs : Fs) (s : Store Blk) (x : BcRef) : Prop :=
  x ∈ fs.slots ∧ dinodeNum s x ≠ 0 ∧ ∀ y ∈ fs.slots, dinodeNum s y = dinodeNum s x → y = x

/-- It is then the one that an entry with that number means. -/
theorem Only.meant (hx : Only fs s x) (h : LinksOk fs E s) {e : Place} (he : e ∈ E)
    (hlive : entryType s e.1 e.2 ≠ 0) (hnum : dinodeNum s x = inodeNum s e.1 e.2) :
    Meant s x e := by
  obtain ⟨y, hy, hmeant⟩ := h.live e he hlive
  obtain rfl := hx.2.2 y hy (hmeant.2.1.trans hnum.symm)
  exact hmeant

/-- An inode that is no directory and has a link has the type of some live entry. -/
theorem Only.typed (hx : Only fs s x) (h : LinksOk fs E s) (hdir : isDir s x = false)
    (hlink : 1 ≤ (linkCount s x).toInt) :
    ∃ b : BitVec 8, b ≠ 0 ∧ b ≠ 0x40 ∧ dinodeType s x = b.setWidth 16 <<< 8 := by
  have hcount := h.count x hx.1 hx.2.1
  unfold linkSum at hcount
  rw [hdir] at hcount
  have hpos : 0 < E.countP (names s (dinodeNum s x)) := by
    simp only [Bool.false_eq_true, if_false] at hcount
    omega
  obtain ⟨e, he, hnames⟩ := countP_pos_iff.mp hpos
  unfold names at hnames
  simp only [Bool.and_eq_true, bne_iff_ne, beq_iff_eq] at hnames
  have hmeant := hx.meant h he hnames.1 hnames.2.symm
  rw [isDir_eq hmeant.2.2] at hdir
  exact ⟨_, hnames.1, beq_eq_false_iff_ne.mp hdir, hmeant.2.2⟩

end

/-! ## 5. The four outcomes -/

/-- The entry that a request is about. -/
abbrev DirectoryArg.place (arg : DirectoryArg) : Place := (arg.dirent.blk, arg.dirent.off.val)

section
variable {fs : Fs} {E : List Place} {s t : Store Blk} {arg : DirectoryArg}

/-- The state after a request: what is counted is right, and the entries are where they were. -/
structure After (fs : Fs) (E : List Place) (s t : Store Blk) : Prop where
  links : LinksOk fs E t
  len : ∀ e ∈ E, t e.1 e.2 = s e.1 e.2

theorem After.of_touched {links : Set BcRef} (hE : Spaced fs E) (h : LinksOk fs E s)
    (he₀ : arg.place ∈ E) (htouch : Store.Touches s t (touched fs arg.dirent ∅ links))
    (hcount : ∀ x ∈ fs.slots, SameInode s t x → dinodeNum s x ≠ 0 →
      (linkCount t x).toInt + worth s x arg.place = (linkCount s x).toInt + worth t x arg.place)
    (hlive : entryType t arg.dirent.blk arg.dirent.off ≠ 0 → ∃ x ∈ fs.slots, dinodeNum s x ≠ 0 ∧
      dinodeNum s x = inodeNum t arg.dirent.blk arg.dirent.off ∧
      dinodeType s x = (entryType t arg.dirent.blk arg.dirent.off).setWidth 16 <<< 8) :
    After fs E s t := by
  have hinode : ∀ x ∈ fs.slots, SameInode s t x :=
    fun x hx => sameInode_of_touched hE he₀ htouch hx (Set.notMem_empty x)
  refine ⟨h.change hE.nodup he₀ (fun _ => False)
    (fun e he hne => sameEntry_of_touched hE he₀ htouch he hne) (fun x hx _ => hinode x hx)
    (fun _ _ hf => absurd hf id) (fun x hx _ => hcount x hx (hinode x hx)) fun hl => ?_,
    fun e he => len_of_touched hE he₀ htouch he⟩
  obtain ⟨x, hx, hmeant⟩ := hlive hl
  refine ⟨x, hx, ?_⟩
  unfold Meant
  rw [(hinode x hx).num, (hinode x hx).type]
  exact hmeant

variable {d new old parent x : BcRef} {e : Place}

theorem names_live {num : BitVec 32} (h : entryType s e.1 e.2 ≠ 0) :
    names s num e = (inodeNum s e.1 e.2 == num) := by
  rw [names, bne_iff_ne.mpr h, Bool.true_and]

theorem worth_dead (h : entryType s e.1 e.2 = 0) : worth s x e = 0 := by
  simp [worth, names, dirIn, h]

theorem Only.beq {y : BcRef} (hy : Only fs s y) (hx : x ∈ fs.slots) :
    (dinodeNum s y == dinodeNum s x) = decide (x = y) := by
  by_cases heq : x = y
  · subst heq
    simp
  · simpa [heq] using fun hnum => heq (hy.2.2 x hx hnum.symm)

/-- What a directory counts does not change if the entry is of a directory as before. -/
theorem dirPart_eq (hx : SameInode s t x)
    (h : entryType t e.1 e.2 = 0x40 ↔ entryType s e.1 e.2 = 0x40) :
    (isDir t x && dirIn t x e) = (isDir s x && dirIn s x e) := by
  have h40 : (entryType t e.1 e.2 == 0x40) = (entryType s e.1 e.2 == 0x40) := by
    rw [Bool.eq_iff_iff, beq_iff_eq, beq_iff_eq]
    exact h
  unfold dirIn
  rw [hx.isDir, hx.contains, h40]

theorem inodeNum_st8 (k : Blk) (a : Nat) (v : BitVec 8) :
    inodeNum (s.st8 k (a + 2) v) k a = inodeNum s k a := by
  apply Store.Same.ld32
  apply Store.blit_apart
  intro _
  omega

theorem relink_num :
    inodeNum (relink s arg old new) arg.dirent.blk arg.dirent.off = arg.param2 := by
  unfold relink
  rw [inodeNum_st8]
  exact Store.ld32_st32 _

theorem relink_touched (hold : old ∈ fs.slots) (hnew : new ∈ fs.slots) :
    Store.Touches s (relink s arg old new) (touched fs arg.dirent ∅ {old, new}) :=
  touches_relink (fun _ _ he => .inl he)
    (fun _ _ hb => .inr (.inr ⟨old, hold, .inl rfl, hb⟩))
    (fun _ _ hb => .inr (.inr ⟨new, hnew, .inr rfl, hb⟩))

theorem addLink_type :
    entryType (addLink t arg d) arg.dirent.blk arg.dirent.off = arg.param2.setWidth 8 := by
  unfold addLink entryType
  rw [Store.st8_self]

/-- A directory is the one whose block an entry is in. -/
def ParentOf (fs : Fs) (s : Store Blk) (p : BcRef) (k : Blk) : Prop :=
  p ∈ fs.slots ∧ isDir s p = true ∧
  ∀ x ∈ fs.slots, dinodeNum s x ≠ 0 → isDir s x = true → (contains s x k = true ↔ x = p)

theorem ParentOf.dirPart {p : BcRef} {k : Blk} (hp : ParentOf fs s p k) (hx : x ∈ fs.slots)
    (hused : dinodeNum s x ≠ 0) : (isDir s x && contains s x k) = decide (x = p) := by
  by_cases heq : x = p
  · subst heq
    simp [hp.2.1, (hp.2.2 x hx hused hp.2.1).mpr rfl]
  cases hdir : isDir s x with
  | false => simp [heq]
  | true =>
    have hno : contains s x k = false := by
      simpa using fun hc => heq ((hp.2.2 x hx hused hdir).mp hc)
    simp [hno, heq]

theorem createDinode_links (hd : d ∈ fs.slots) (hparent : parent ∈ fs.slots)
    (hne : d ≠ parent) (hx : x ∈ fs.slots) :
    linkCount (createDinode s arg d parent) x =
      if isDir (initDinode s arg d parent) d ∧ (x = d ∨ x = parent) then
        linkCount (initDinode s arg d parent) x + 1
      else linkCount (initDinode s arg d parent) x := by
  unfold createDinode
  dsimp only
  cases isDir (initDinode s arg d parent) d with
  | false => simp
  | true =>
    simp only [if_true, true_and]
    by_cases hxp : x = parent
    · subst hxp
      rw [linkCount_setLinkCount_self, linkCount_setLinkCount_ne hd hx hne.symm, if_pos (.inr rfl)]
    rw [linkCount_setLinkCount_ne hparent hx hxp]
    by_cases hxd : x = d
    · subst hxd
      rw [linkCount_setLinkCount_self, if_pos (.inl rfl)]
    · rw [linkCount_setLinkCount_ne hd hx hxd, if_neg (by tauto)]

/-- The state that a new file leaves. -/
structure Created (fs : Fs) (s t : Store Blk) (arg : DirectoryArg) (d parent : BcRef) : Prop where
  num : dinodeNum t d = inodeNum s arg.dirent.blk arg.dirent.off
  type : dinodeType t d = (arg.param2 <<< 8).setWidth 16
  direct : ∀ i, i < numDirect → directBlock t d i = 0
  entry : inodeNum t arg.dirent.blk arg.dirent.off = inodeNum s arg.dirent.blk arg.dirent.off
  own : linkCount t d = if isDir t d then 2 else 1
  links : ∀ x ∈ fs.slots, x ≠ d → linkCount t x =
    if isDir t d ∧ x = parent then linkCount s x + 1 else linkCount s x

variable (hE : Spaced fs E) (he₀ : arg.place ∈ E)
include hE he₀

theorem relink_links (hx : x ∈ fs.slots) :
    linkCount (relink s arg old new) x =
      let s := setLinkCount s old (linkCount s old - 1)
      linkCount (setLinkCount s new (linkCount s new + 1)) x := by
  unfold relink Store.st8 Store.st32
  rw [linkCount_blit hE hx he₀ (by omega), linkCount_blit hE hx he₀ (by omega)]

theorem relink_type (hold : old ∈ fs.slots)
    (hnew : new ∈ fs.slots) :
    entryType (relink s arg old new) arg.dirent.blk arg.dirent.off =
      (dinodeType s new >>> 8).setWidth 8 := by
  unfold relink entryType
  rw [Store.st8_self]
  -- the type is read after the other stores
  rw [Store.st32, dinodeType, (slot_blit hE hnew he₀ (by omega) (by omega) _).ld16, ← dinodeType,
    dinodeType_setLinkCount hnew hnew, dinodeType_setLinkCount hold hnew]

theorem relink_after (h : LinksOk fs E s)
    (hlive : entryType s arg.dirent.blk arg.dirent.off ≠ 0)
    (hold : Only fs s old) (hnew : Only fs s new)
    (holdnum : dinodeNum s old = inodeNum s arg.dirent.blk arg.dirent.off)
    (hnewnum : dinodeNum s new = arg.param2)
    (htype : dinodeType s old = dinodeType s new ∨ (isDir s old = false ∧ isDir s new = false))
    (hlink : (if isDir s new then 2 else 1) ≤ (linkCount s new).toInt)
    (hmax : old = new ∨ linkCount s new ≠ 0x7fff) : After fs E s (relink s arg old new) := by
  have hmeant := hold.meant h he₀ hlive holdnum
  -- the new inode has a type that an entry can have, of a directory or not as before
  obtain ⟨b, hb, hb40, hbtype⟩ : ∃ b : BitVec 8, b ≠ 0 ∧
      (b = 0x40 ↔ entryType s arg.dirent.blk arg.dirent.off = 0x40) ∧
      dinodeType s new = b.setWidth 16 <<< 8 := by
    rcases htype with heq | ⟨hodir, hndir⟩
    · exact ⟨_, hlive, Iff.rfl, heq ▸ hmeant.2.2⟩
    rw [hndir] at hlink
    obtain ⟨b, hb, hb40, hbt⟩ := hnew.typed h hndir hlink
    rw [isDir_eq hmeant.2.2] at hodir
    exact ⟨b, hb, iff_of_false hb40 (beq_eq_false_iff_ne.mp hodir), hbt⟩
  have hentry : entryType (relink s arg old new) arg.dirent.blk arg.dirent.off = b := by
    rw [relink_type hE he₀ hold.1 hnew.1, hbtype, type_high]
  have hnum : inodeNum (relink s arg old new) arg.dirent.blk arg.dirent.off = arg.param2 :=
    relink_num
  refine .of_touched hE h he₀ (relink_touched hold.1 hnew.1) (fun x hx hsame hused => ?_) fun _ => ?_
  · -- a directory counts the entry as before, so the names decide
    have hdir := dirPart_eq (e := arg.place) hsame (by rw [hentry]; exact hb40)
    have hn : names s (dinodeNum s x) arg.place = decide (x = old) := by
      rw [names_live hlive, ← holdnum, hold.beq hx]
    have hn' : names (relink s arg old new) (dinodeNum s x) arg.place =
        decide (x = new) := by
      rw [names_live (by rw [hentry]; exact hb), hnum, ← hnewnum, hnew.beq hx]
    unfold worth
    -- the entry itself is a name of the old inode
    have hw := worth_le (s := s) (x := x) he₀
    have hc := h.count x hx hused
    unfold worth at hw
    rw [hn] at hw
    have hdec := linkCount_dec (s := s) hx hold.1 (by omega)
    rw [hdir, hsame.num, hn, hn', relink_links hE he₀ hx, linkCount_inc hx hnew.1, hdec]
    · omega
    rintro rfl hfull
    by_cases hxo : x = old
    · have hlt : (linkCount s x).toInt < 2 ^ 15 := (linkCount s x).toInt_lt
      rw [hfull, decide_eq_true hxo] at hdec
      change (32767 : Int) = _ - 1 at hdec
      omega
    · rw [linkCount_setLinkCount_ne hold.1 hx hxo] at hfull
      exact hmax.elim (fun heq => hxo heq.symm) (absurd hfull)
  · rw [hnum, hentry]
    exact ⟨new, hnew.1, hnew.2.1, hnewnum, hbtype⟩

theorem setnum_after (h : LinksOk fs E s)
    (hdead : entryType s arg.dirent.blk arg.dirent.off = 0) (num : BitVec 32) :
    After fs E s (s.st32 arg.dirent.blk (arg.dirent.off + 4) num) := by
  have htouch : Store.Touches s (s.st32 arg.dirent.blk (arg.dirent.off + 4) num)
      (touched fs arg.dirent ∅ ∅) :=
    touches_inodeNum (.refl _ _) (fun _ _ he => .inl he) num
  have hdead' : entryType (s.st32 arg.dirent.blk (arg.dirent.off + 4) num)
      arg.dirent.blk arg.dirent.off = 0 := by
    unfold entryType Store.st32
    rw [Store.blit_outside (by omega)]
    exact hdead
  refine .of_touched hE h he₀ htouch (fun x hx _ _ => ?_) fun hl => absurd hdead' hl
  rw [linkCount_of_touched hE he₀ htouch hx (Set.notMem_empty x) (Set.notMem_empty x)]
  rw [worth_dead hdead, worth_dead hdead']

theorem addLink_links (hx : x ∈ fs.slots) :
    linkCount (addLink t arg d) x = linkCount (setLinkCount t d (linkCount t d + 1)) x := by
  unfold addLink Store.st8
  rw [linkCount_blit hE hx he₀ (by omega)]

theorem addLink_num (hd : d ∈ fs.slots) :
    inodeNum (addLink t arg d) arg.dirent.blk arg.dirent.off =
      inodeNum t arg.dirent.blk arg.dirent.off := by
  unfold addLink
  rw [inodeNum_st8]
  unfold setLinkCount Store.st16 inodeNum
  have hap := slot_entry hE hd he₀
  dsimp only at hap
  apply Store.ld32_blit
  exact hap.mono (by omega) (by omega) (by omega) (by omega)

theorem addLink_after (h : LinksOk fs E s)
    (hdead : entryType s arg.dirent.blk arg.dirent.off = 0) (hd : Only fs s d)
    (hdnum : dinodeNum s d = inodeNum s arg.dirent.blk arg.dirent.off)
    (hlink : 1 ≤ (linkCount s d).toInt) (hdir : isDir s d = false)
    (htype : (dinodeType s d).setWidth 32 = arg.param2 <<< 8)
    (hmax : linkCount s d ≠ 0x7fff) : After fs E s (addLink s arg d) := by
  have htouch : Store.Touches s (addLink s arg d) (touched fs arg.dirent ∅ {d}) :=
    touches_addLink (.refl _ _) (fun _ _ he => .inl he)
      (fun _ _ hb => .inr (.inr ⟨d, hd.1, rfl, hb⟩))
  -- the type that is asked for is the one of the other names
  obtain ⟨b, hb, hb40, hbtype⟩ := hd.typed h hdir hlink
  have hentry : entryType (addLink s arg d) arg.dirent.blk arg.dirent.off = b := by
    rw [addLink_type]
    rw [hbtype] at htype
    have hnat := congrArg BitVec.toNat htype
    simp only [toNat_setWidth, toNat_shiftLeft, Nat.shiftLeft_eq] at hnat
    apply eq_of_toNat_eq
    rw [toNat_setWidth]
    have hlt := b.isLt
    omega
  have hnum := addLink_num (t := s) hE he₀ hd.1
  refine .of_touched hE h he₀ htouch (fun x hx hsame _ => ?_) fun _ => ?_
  · have hdirp : dirIn (addLink s arg d) x arg.place = false := by
      unfold dirIn
      rw [hentry, beq_eq_false_iff_ne.mpr hb40, Bool.false_and]
    rw [worth_dead hdead, worth, hdirp, names_live (by rw [hentry]; exact hb), hnum, ← hdnum,
      hsame.num, hd.beq hx, addLink_links hE he₀ hx, Bool.and_false]
    rw [linkCount_inc hx hd.1 (· ▸ hmax)]
    simp
  · rw [hnum, hentry]
    exact ⟨d, hd.1, hd.2.1, hdnum, hbtype⟩

theorem removeLink_links (hd : d ∈ fs.slots)
    (hx : x ∈ fs.slots) :
    linkCount (removeLink s arg d parent) x =
      let s := if isDir s d then setLinkCount s parent (linkCount s parent - 1) else s
      linkCount (setLinkCount s d (linkCount s d - 1)) x := by
  unfold removeLink Store.st8
  by_cases hxd : x = d
  · subst hxd
    rw [linkCount_setLinkCount_self, linkCount_setLinkCount_self, linkCount_blit hE hd he₀ (by omega)]
  · rw [linkCount_setLinkCount_ne hd hx hxd, linkCount_setLinkCount_ne hd hx hxd,
      linkCount_blit hE hx he₀ (by omega)]

theorem removeLink_after (h : LinksOk fs E s)
    (hlive : entryType s arg.dirent.blk arg.dirent.off ≠ 0) (hd : Only fs s d)
    (hdnum : dinodeNum s d = inodeNum s arg.dirent.blk arg.dirent.off) (hparent : parent ∈ fs.slots)
    (hpar : isDir s d = true → ParentOf fs s parent arg.dirent.blk) :
    After fs E s (removeLink s arg d parent) := by
  have htouch : Store.Touches s (removeLink s arg d parent) (touched fs arg.dirent ∅ {d, parent}) :=
    touches_removeLink (fun _ _ he => .inl he)
      (fun _ _ hb => .inr (.inr ⟨d, hd.1, .inl rfl, hb⟩))
      (fun _ _ hb => .inr (.inr ⟨parent, hparent, .inr rfl, hb⟩))
  have hdead : entryType (removeLink s arg d parent) arg.dirent.blk arg.dirent.off = 0 := by
    unfold removeLink setLinkCount Store.st16 entryType
    rw [Store.blit_outside, Store.st8_self]
    intro hk
    have hap := slot_entry hE hd.1 he₀ hk.symm
    dsimp only at hap
    omega
  have hmeant := hd.meant h he₀ hlive hdnum
  refine .of_touched hE h he₀ htouch (fun x hx _ hused => ?_) fun hl => absurd hdead hl
  have hw := worth_le (s := s) (x := x) he₀
  have hc := h.count x hx hused
  rw [worth_dead (e := arg.place) hdead, removeLink_links hE he₀ hd.1 hx]
  unfold worth at hw ⊢
  rw [names_live hlive, ← hdnum, hd.beq hx] at hw ⊢
  unfold dirIn at hw ⊢
  rw [← isDir_eq hmeant.2.2] at hw ⊢
  cases hdir : isDir s d with
  | false =>
    simp only [Bool.false_and, Bool.and_false, Bool.toNat_false, Bool.false_eq_true, if_false,
      add_zero] at hw ⊢
    rw [linkCount_dec hx hd.1 (by omega)]
    omega
  | true =>
    rw [hdir] at hw
    simp only [Bool.true_and, if_true, (hpar hdir).dirPart hx hused] at hw ⊢
    have hdec := linkCount_dec (s := s) hx hparent (by omega)
    rw [linkCount_dec hx hd.1 (by omega), hdec]
    omega

theorem initDinode_fields (hd : d ∈ fs.slots) :
    dinodeNum (initDinode s arg d parent) d = inodeNum s arg.dirent.blk arg.dirent.off ∧
    dinodeType (initDinode s arg d parent) d = (arg.param2 <<< 8).setWidth 16 ∧
    linkCount (initDinode s arg d parent) d = 0 ∧
    ∀ i, i < numDirect → directBlock (initDinode s arg d parent) d i = 0 := by
  have hap := slot_entry hE hd he₀
  dsimp only at hap
  have hnum : inodeNum ((s.zero d.blk d.off dinodeSize).st32 d.blk (d.off + 124) memorySanity)
      arg.dirent.blk arg.dirent.off = inodeNum s arg.dirent.blk arg.dirent.off := by
    unfold inodeNum Store.st32 Store.zero dinodeSize
    rw [Store.ld32_blit (hap.mono (by omega) (by omega) (by omega) (by omega)),
      Store.ld32_blit (hap.mono (by omega) (by omega) (by omega) (by omega))]
  refine ⟨?_, ?_, ?_, ?_⟩
  · unfold initDinode dinodeNum Store.st16
    rw [Store.ld32_blit fun _ => by omega]
    nth_rewrite 1 [Store.st32]
    rw [Store.ld32_blit fun _ => by omega, Store.ld32_st32, hnum]
  · unfold initDinode dinodeType
    rw [Store.ld16_st16]
  · unfold initDinode linkCount Store.st16 Store.st32
    rw [Store.ld16_blit fun _ => by omega, Store.ld16_blit fun _ => by omega,
      Store.ld16_blit fun _ => by omega, Store.ld16_blit fun _ => by omega,
      Store.ld16_zero (by omega) (by change _ ≤ d.off.val + 128; omega)]
  · intro i hi
    change i < 15 at hi
    unfold initDinode directBlock Store.st16 Store.st32
    rw [Store.ld32_blit fun _ => by omega, Store.ld32_blit fun _ => by omega,
      Store.ld32_blit fun _ => by omega, Store.ld32_blit fun _ => by omega,
      Store.ld32_zero (by omega) (by change _ ≤ d.off.val + 128; omega)]

theorem created (hd : d ∈ fs.slots)
    (hparent : parent ∈ fs.slots) (hne : d ≠ parent) :
    Created fs s (addLink (createDinode s arg d parent) arg d) arg d parent := by
  obtain ⟨hnum, htype, hlinks, hdirect⟩ :
    dinodeNum (initDinode s arg d parent) d = _ ∧ _ := initDinode_fields hE he₀ hd
  -- after the inode is set up, only link counts and the entry change
  have hlater : Store.Touches (initDinode s arg d parent)
      (addLink (createDinode s arg d parent) arg d) (touched fs arg.dirent ∅ {d, parent}) := by
    have hl : ∀ x ∈ ({d, parent} : Set BcRef), x ∈ fs.slots → ∀ k a, linkBytes x k a →
        touched fs arg.dirent ∅ {d, parent} k a :=
      fun x hx hs _ _ hb => .inr (.inr ⟨x, hs, hx, hb⟩)
    apply touches_addLink _ (fun _ _ he => .inl he) (hl d (.inl rfl) hd)
    unfold createDinode
    dsimp only
    split
    · exact touches_setLinkCount (touches_setLinkCount (.refl _ _) (hl d (.inl rfl) hd) _)
        (hl parent (.inr rfl) hparent) _
    · exact .refl _ _
  have hsame := sameInode_of_touched hE he₀ hlater hd (Set.notMem_empty d)
  have hdinodes : Store.Touches s (createDinode s arg d parent)
      fun k a => ∃ x ∈ fs.slots, dinodeBytes x k a :=
    touches_createDinode (fun _ _ hb => ⟨d, hd, hb⟩) (fun _ _ hb => ⟨parent, hparent, hb.dinode⟩)
  refine ⟨hsame.num.trans hnum, hsame.type.trans htype,
    fun i hi => (hsame.direct i hi).trans (hdirect i hi), ?_, ?_, ?_⟩
  · rw [addLink_num hE he₀ hd]
    apply Store.Same.ld32
    apply hdinodes.same
    rintro i hi hin ⟨x, hx, hk, hb⟩
    have hap := slot_entry hE hx he₀ hk.symm
    dsimp only at hap
    omega
  · rw [addLink_links hE he₀ hd, linkCount_setLinkCount_self, createDinode_links hd hparent hne hd,
      hsame.isDir, hlinks]
    cases isDir (initDinode s arg d parent) d with
    | false => simp
    | true => simp
  · intro x hx hxd
    have hinit : Store.Touches s (initDinode s arg d parent) (touched fs arg.dirent {d} ∅) :=
      touches_initDinode fun _ _ hb => .inr (.inl ⟨d, hd, rfl, hb⟩)
    rw [addLink_links hE he₀ hx, linkCount_setLinkCount_ne hd hx hxd,
      createDinode_links hd hparent hne hx, hsame.isDir,
      linkCount_of_touched hE he₀ hinit hx hxd (Set.notMem_empty x)]
    simp only [hxd, false_or]

theorem create_after (h : LinksOk fs E s)
    (hdead : entryType s arg.dirent.blk arg.dirent.off = 0)
    (hnum : inodeNum s arg.dirent.blk arg.dirent.off ≠ 0) (hd : d ∈ fs.slots)
    (hfree : dinodeNum s d = 0) (hparent : parent ∈ fs.slots) (hpnum : dinodeNum s parent ≠ 0)
    (hnone : ∀ x ∈ fs.slots, dinodeNum s x ≠ inodeNum s arg.dirent.blk arg.dirent.off)
    (hb : arg.param2.setWidth 8 ≠ 0)
    (hdirp : arg.param2.setWidth 8 = 0x40 →
      ParentOf fs s parent arg.dirent.blk ∧ linkCount s parent ≠ 0x7fff) :
    After fs E s (addLink (createDinode s arg d parent) arg d) := by
  have hne : d ≠ parent := fun heq => hpnum (heq ▸ hfree)
  have hc : Created fs s (addLink (createDinode s arg d parent) arg d) arg d parent :=
    created hE he₀ hd hparent hne
  have hentry : entryType (addLink (createDinode s arg d parent) arg d) arg.dirent.blk
      arg.dirent.off = arg.param2.setWidth 8 := addLink_type
  have htouch : Store.Touches s (addLink (createDinode s arg d parent) arg d)
      (touched fs arg.dirent {d} {parent}) := by
    apply touches_addLink _ (fun _ _ he => .inl he)
      (fun _ _ hb => .inr (.inl ⟨d, hd, rfl, hb.dinode⟩))
    exact touches_createDinode (fun _ _ hb => .inr (.inl ⟨d, hd, rfl, hb⟩))
      (fun _ _ hb => .inr (.inr ⟨parent, hparent, rfl, hb⟩))
  generalize addLink (createDinode s arg d parent) arg d = t at hc hentry htouch ⊢
  have hother : ∀ e ∈ E, e ≠ arg.place → SameEntry s t e :=
    fun e he hne => sameEntry_of_touched hE he₀ htouch he hne
  have hinode : ∀ x ∈ fs.slots, ¬ x = d → SameInode s t x :=
    fun x hx hxd => sameInode_of_touched hE he₀ htouch hx hxd
  have htype : dinodeType t d = (arg.param2.setWidth 8).setWidth 16 <<< 8 :=
    hc.type.trans (type_shift _)
  have hlive : entryType t arg.dirent.blk arg.dirent.off ≠ 0 := by
    rw [hentry]
    exact hb
  refine ⟨h.change hE.nodup he₀ (· = d) hother hinode ?_ ?_ ?_,
    fun e he => len_of_touched hE he₀ htouch he⟩
  · rintro x - rfl
    refine ⟨hfree, ?_⟩
    -- one name, and nothing in it
    have hone : E.countP (names t (dinodeNum t x)) = 1 := by
      refine Tally.countP_eq_one hE.nodup he₀ ?_ ?_
      · rw [names_live hlive, hc.entry, hc.num, beq_iff_eq]
      intro e he hn
      by_contra heq
      rw [(hother e he heq).names, hc.num] at hn
      unfold names at hn
      simp only [Bool.and_eq_true, bne_iff_ne, beq_iff_eq] at hn
      obtain ⟨y, hy, -, hynum, -⟩ := h.live e he hn.1
      exact hnone y hy (hynum.trans hn.2)
    have hempty : E.countP (dirIn t x) = 0 := by
      rw [countP_eq_zero]
      intro e _
      have hno : contains t x e.1 = false := by
        unfold contains
        rw [any_eq_false]
        intro i hi
        rw [hc.direct i (mem_range.mp hi)]
        simp
      simp [dirIn, hno]
    rw [hc.own, linkSum, hone, hempty]
    cases isDir t x with
    | false => rfl
    | true => rfl
  · intro x hx hxd hused
    have hsame := hinode x hx hxd
    have hn : names t (dinodeNum s x) arg.place = false := by
      rw [names_live hlive, hc.entry]
      exact beq_eq_false_iff_ne.mpr fun heq => hnone x hx heq.symm
    rw [worth_dead hdead, worth, hsame.num, hn, hc.links x hx hxd, isDir_eq htype]
    unfold dirIn
    rw [hentry, hsame.isDir, hsame.contains]
    cases h40 : arg.param2.setWidth 8 == 0x40 with
    | false => simp
    | true =>
      obtain ⟨hpar, hmax⟩ := hdirp (beq_iff_eq.mp h40)
      rw [Bool.true_and, hpar.dirPart hx hused]
      by_cases hxp : x = parent
      · subst hxp
        rw [if_pos ⟨rfl, rfl⟩, toInt_add_one hmax]
        simp
      · simp [hxp]
  · intro _
    refine ⟨d, hd, ?_, ?_, ?_⟩
    · rw [hc.num]
      exact hnum
    · rw [hc.num, hc.entry]
    · rw [htype, hentry]

end

/-! ## 6. Runs -/

/-- **What a request has to keep to**, in the state it is made in: references are to inodes of the
    file system, each the only one with its number, and a number is new when an inode is to be
    created with it. The parent of a directory is the directory that the entry is in, the type
    fits its byte, and no count is at its end. -/
def DirReq.LinkSound (fs : Fs) (s : Store Blk) (q : DirReq) : Prop :=
  let k := q.arg.dirent.blk
  let a : Nat := q.arg.dirent.off
  let d := q.arg.refParam3
  let d' := q.arg.refParam4
  k ∈ fs.dirs ∧
  match q.action with
  | .setinodenum => entryType s k a ≠ 0 → Only fs s d ∧ Only fs s d' ∧
    (d = d' ∨ linkCount s d' ≠ 0x7fff)
  | .settype =>
    d ∈ fs.slots ∧ d' ∈ fs.slots ∧
    (q.arg.param2 = 0 → Only fs s d ∧ (isDir s d = true → ParentOf fs s d' k)) ∧
    (q.arg.param2 ≠ 0 → q.arg.param2.setWidth 8 ≠ 0 ∧
      (dinodeNum s d ≠ 0 → Only fs s d ∧ linkCount s d ≠ 0x7fff) ∧
      (dinodeNum s d = 0 → (∀ x ∈ fs.slots, dinodeNum s x ≠ inodeNum s k a) ∧
        (q.arg.param2.setWidth 8 = 0x40 → ParentOf fs s d' k ∧ linkCount s d' ≠ 0x7fff)))
  | _ => False

section
variable {fs : Fs} {E : List Place} {s t : Store Blk}

theorem After.same (h : LinksOk fs E s) : After fs E s s := ⟨h, fun _ _ => rfl⟩

variable {r : Except CffsErr Nat} {resident : Blk → Bool} {copyin : Option (Nat → BitVec 8)}
  {arg : DirectoryArg} (hE : Spaced fs E) (h : LinksOk fs E s)
include hE h

theorem setinodenum_after (he₀ : arg.place ∈ E)
    (hsound : DirReq.LinkSound fs s ⟨resident, copyin, .setinodenum, arg⟩)
    (hcall : setinodenum resident s arg = .ok (r, t)) : After fs E s t := by
  rcases setinodenum_ends.ok hcall with ⟨rfl, -⟩ | ⟨hdead, rfl⟩ |
    ⟨hlive, hold, hnew, htype, hlink, rfl⟩
  · exact .same h
  · exact setnum_after hE he₀ h hdead _
  · obtain ⟨hd, hd', hmax⟩ := hsound.2 hlive
    exact relink_after hE he₀ h hlive hd hd' hold hnew htype hlink hmax

theorem settype_after (he₀ : arg.place ∈ E)
    (hsound : DirReq.LinkSound fs s ⟨resident, copyin, .settype, arg⟩)
    (hcall : settype resident s arg = .ok (r, t)) : After fs E s t := by
  obtain ⟨-, hd, hd', hunlink, hadd⟩ := hsound
  rcases settype_ends.ok hcall with rfl | ⟨hty, hdead, hused, hnum, hlink, hdir, htype, rfl⟩ |
    ⟨hty, hdead, hnum, hfree, hpnum, rfl⟩ | ⟨hty, hlive, hnum, rfl⟩
  · exact .same h
  · obtain ⟨honly, hmax⟩ := (hadd hty).2.1 hused
    exact addLink_after hE he₀ h hdead honly hnum hlink hdir htype hmax
  · obtain ⟨hnone, hparent⟩ := (hadd hty).2.2 hfree
    exact create_after hE he₀ h hdead hnum hd hfree hd' hpnum hnone (hadd hty).1 hparent
  · obtain ⟨honly, hparent⟩ := hunlink hty
    exact removeLink_after hE he₀ h hlive honly (hnum.resolve_left honly.2.1) hd' hparent

theorem DirReq.link_step {q : DirReq} (hentries : entries fs s = E) (hsound : q.LinkSound fs s)
    (hcall : q.exec s = .ok (r, t)) : After fs E s t := by
  obtain ⟨resident, copyin, action, arg⟩ := q
  have hk : arg.dirent.blk ∈ fs.dirs := hsound.1
  unfold DirReq.exec servFsupdateDirectory at hcall
  rcases translateAddress_cases resident arg.dirent with hd | hd
  · simp only [hd] at hcall
    cases hv : isValidDirent s arg.dirent with
    | error e =>
      rw [hv] at hcall
      cases hcall
    | ok b =>
      rw [hv] at hcall
      cases b with
      | false =>
        cases hcall
        exact .same h
      | true =>
        have he₀ : arg.place ∈ E :=
          hentries ▸ mem_entries_of_valid hk hv
        cases action with
        | setinodenum => exact setinodenum_after hE h he₀ hsound hcall
        | settype => exact settype_after hE h he₀ hsound hcall
        | initdirblock | splitentry | setname | mergeentry | shiftentry | unknown =>
          exact absurd hsound.2 id
  · rw [hd] at hcall
    cases hcall
    exact .same h

end

/-- **In every run of requests that keep to `LinkSound`** each inode counts its names, and a
    directory itself and the directories in it, the inode of each live entry is in use and of its
    type, and no count is negative. -/
theorem link_counts_exact {fs : Fs} {s t : Store Blk} (hlaid : fs.LaidOut s)
    (h0 : LinksOk fs (entries fs s) s)
    (hrun : Run.Reaches DirReq.Does (fun s q => q.LinkSound fs s) s t) :
    LinksOk fs (entries fs t) t ∧
    ∀ x ∈ fs.slots, dinodeNum t x ≠ 0 → 0 ≤ (linkCount t x).toInt := by
  have hE := entries_spaced hlaid
  have ht : entries fs t = entries fs s ∧ LinksOk fs (entries fs s) t := by
    refine hrun.invariant (I := fun t => entries fs t = entries fs s ∧ LinksOk fs (entries fs s) t)
      ⟨rfl, h0⟩ ?_
    intro s' q t' hs hsound hdoes
    cases hdoes with
    | intro r hcall =>
      have hafter := DirReq.link_step hE hs.2 hs.1 hsound hcall
      refine ⟨?_, hafter.links⟩
      rw [← hs.1]
      apply entries_congr
      rw [hs.1]
      exact hafter.len
  rw [ht.1]
  refine ⟨ht.2, fun x hx hused => ?_⟩
  rw [ht.2.count x hx hused]
  exact Int.natCast_nonneg _

/-! A file with one name, and an inode that is not in use beside its own. -/

def demoFs : Fs where
  dirs := [demoBlk]
  slots := {⟨demoBlk, 128⟩, ⟨demoBlk, 256⟩}
  nodup := by simp
  aligned := by
    rintro x (rfl | rfl)
    · rfl
    · rfl
  outside := by
    rintro x (rfl | rfl) -
    · decide
    · decide

def demoFile : Store Blk := fun k a => if 256 ≤ a ∧ a < 384 then 0 else demoDir k a

/-- Remove the name, with these two references. -/
def demoUnlink (d parent : Fin blockSize) : DirReq :=
  { demoReq .settype 0 0 with
    arg := { (demoReq .settype 0 0).arg with
      refParam3 := ⟨demoBlk, d⟩
      refParam4 := ⟨demoBlk, parent⟩ } }

theorem demoFile_laid : demoFs.LaidOut demoFile := by
  intro k hk c hc
  obtain rfl := mem_singleton.mp hk
  have hend : Laid demoFile demoBlk (c * 512) (0 + 128) := .done
  interval_cases c
  all_goals exact .entry (by decide) hend

theorem demoFile_links : LinksOk demoFs (entries demoFs demoFile) demoFile where
  count := by
    rintro x (rfl | rfl) hused
    · decide
    · exact absurd (by decide) hused
  live := by
    have hdead : ∀ e ∈ entries demoFs demoFile, entryType demoFile e.1 e.2 ≠ 0 →
        e = (demoBlk, 0) := by decide
    intro e he hl
    obtain rfl := hdead e he hl
    exact ⟨⟨demoBlk, 128⟩, .inl rfl, by decide, by decide, by decide⟩

theorem demoUnlink_sound : (demoUnlink 128 128).LinkSound demoFs demoFile := by
  have honly : Only demoFs demoFile ⟨demoBlk, 128⟩ := by
    refine ⟨.inl rfl, by decide, ?_⟩
    rintro y (rfl | rfl) hnum
    · rfl
    · exact absurd hnum (by decide)
  exact ⟨mem_singleton.mpr rfl, honly.1, honly.1,
    fun _ => ⟨honly, fun hdir => absurd hdir (by decide)⟩, fun hne => absurd rfl hne⟩

theorem link_counts_after_unlink :
    demoFs.LaidOut demoFile ∧ LinksOk demoFs (entries demoFs demoFile) demoFile ∧
    (linkCount demoFile ⟨demoBlk, 128⟩).toInt = 1 ∧
    (linkCount (afterReq demoFile (demoUnlink 128 128)) ⟨demoBlk, 128⟩).toInt = 0 ∧
    LinksOk demoFs (entries demoFs (afterReq demoFile (demoUnlink 128 128)))
      (afterReq demoFile (demoUnlink 128 128)) := by
  refine ⟨demoFile_laid, demoFile_links, by decide, by decide, ?_⟩
  have hdoes : (demoUnlink 128 128).Does demoFile (afterReq demoFile (demoUnlink 128 128)) :=
    does_of_grants (by decide)
  exact (link_counts_exact demoFile_laid demoFile_links
    (Run.Reaches.refl.call demoUnlink_sound hdoes)).1

/-- The name is removed with a reference to the inode that is not in use. The file keeps its
    count of one without a name, and the other inode has a count below zero. -/
theorem unlink_of_free_dinode :
    demoFs.LaidOut demoFile ∧ LinksOk demoFs (entries demoFs demoFile) demoFile ∧
    grants demoFile (demoUnlink 256 128) = true ∧
    (linkCount (afterReq demoFile (demoUnlink 256 128)) ⟨demoBlk, 256⟩).toInt = -1 ∧
    ¬ LinksOk demoFs (entries demoFs (afterReq demoFile (demoUnlink 256 128)))
      (afterReq demoFile (demoUnlink 256 128)) := by
  refine ⟨demoFile_laid, demoFile_links, by decide, by decide, ?_⟩
  intro h
  have hcount := h.count ⟨demoBlk, 128⟩ (.inl rfl) (by decide)
  exact absurd hcount (by decide)

end Cffs
end Exokernel
