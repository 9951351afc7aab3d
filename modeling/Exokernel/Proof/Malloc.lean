import Exokernel.Kern.Malloc
import Exokernel.Lib.Run

/-!
# `malloc` loses nothing and hands nothing out twice

**What a page's `pp_bs` says decides whose the bytes are.** A page cut into blocks has
the number of the block size there; the first page of a run has the length of the run
and the mark; the other pages of a run have the mark alone. Two pieces of memory that
are described by these labels and start at different addresses cannot overlap
(`Malloc.Piece.disjoint`), so it is enough to keep track of labels, of which blocks
are on which list, and of which pointers are outstanding. That is the invariant
`Sound`.

The length of a run has eight bits. A run of 256 pages or more is freed in part or not
at all, and a request close to the end of the address space is rounded up to nothing;
so the results are about requests of at most 255 pages (`AllocOp.Fits`).
-/
set_option autoImplicit false

namespace Exokernel

open Function Option List Nat

/-! ## 1. Sizes -/

theorem blockSize_mul_bppg (b : Fin maxBs) : blockSize b.val * bppg b.val = 4096 := by
  have hb : b.val < 9 := b.isLt
  unfold blockSize bppg
  rw [← Nat.pow_add, show b.val + 4 + (8 - b.val) = 12 by omega]

theorem blockSize_dvd (b : Fin maxBs) : blockSize b.val ∣ 4096 :=
  ⟨_, (blockSize_mul_bppg b).symm⟩

theorem blockSize_pos (b : Nat) : 0 < blockSize b := Nat.pow_pos (by decide)

theorem sixteen_dvd_blockSize (b : Nat) : 16 ∣ blockSize b :=
  ⟨2 ^ b, by rw [blockSize, Nat.pow_add, Nat.mul_comm]⟩

/-- `size & size_mask[bsn]` is what is left over. -/
theorem and_sizeMask (size : BitVec 32) {bsn : Nat} (h : bsn < 9) :
    size &&& sizeMask bsn ≠ 0 ↔ size.toNat % blockSize bsn ≠ 0 := by
  have hmask : (sizeMask bsn).toNat = 2 ^ (bsn + 4) - 1 := by
    have hle : 2 ^ (bsn + 4) ≤ 2 ^ 12 := Nat.pow_le_pow_right (by decide) (by omega)
    rw [sizeMask, BitVec.toNat_ofNat, blockSize]
    exact mod_eq_of_lt (by omega)
  have hand : (size &&& sizeMask bsn).toNat = size.toNat % blockSize bsn := by
    rw [BitVec.toNat_and, hmask, and_two_pow_sub_one_eq_mod, blockSize]
  rw [← hand, not_iff_not]
  exact ⟨fun h => by rw [h]; rfl, fun h => BitVec.eq_of_toNat_eq h⟩

/-- Round down to a block size, and up again if something is left over. -/
theorem bsnum_eq {size : BitVec 32} {n : Nat} (hfls : fls size - 5 = n)
    (hn : n < 8 ∨ n = 8 ∧ size.toNat % blockSize n = 0) :
    bsnum size = if size.toNat % blockSize n ≠ 0 then n + 1 else n := by
  unfold bsnum
  have h9 : ¬ maxBs ≤ n := by change ¬ 9 ≤ n; omega
  simp only [hfls, h9, if_false, and_sizeMask size (by omega : n < 9)]
  have hle : ¬ maxBs ≤ if size.toNat % blockSize n ≠ 0 then n + 1 else n := by
    change ¬ 9 ≤ _
    split <;> omega
  rw [if_neg hle]

/-- A request of at most a page gets a block size that is large enough. -/
theorem bsnum_spec {size : BitVec 32} (h0 : size ≠ 0) (hle : size.toNat ≤ 4096) :
    bsnum size < maxBs ∧ size.toNat ≤ blockSize (bsnum size) := by
  have hv0 : size.toNat ≠ 0 := fun h => h0 (BitVec.eq_of_toNat_eq h)
  have hlow := pow_log_le_self 2 hv0
  have hhigh := lt_pow_succ_log_self (b := 2) (by decide) size.toNat
  have hfls : fls size = Nat.log 2 size.toNat + 1 := by rw [fls, if_neg h0]
  generalize Nat.log 2 size.toNat = e at hlow hhigh hfls
  have he : e ≤ 12 := by
    by_contra hgt
    have : 2 ^ 13 ≤ 2 ^ e := Nat.pow_le_pow_right (by decide) (by omega)
    omega
  change bsnum size < 9 ∧ _
  by_cases h4 : e < 4
  · -- less than the smallest block, and rounded up all the same
    have hpow : 2 ^ (e + 1) ≤ 2 ^ 4 := Nat.pow_le_pow_right (by decide) (by omega)
    have hne : size.toNat % blockSize 0 ≠ 0 := by
      rw [show blockSize 0 = 16 from rfl, mod_eq_of_lt (by omega)]
      exact hv0
    rw [bsnum_eq (n := 0) (by omega) (.inl (by decide)), if_pos hne]
    have h32 : blockSize (0 + 1) = 32 := rfl
    omega
  · have hsize : blockSize (e - 4) = 2 ^ e := by rw [blockSize]; congr 1; omega
    have hsize' : blockSize (e - 4 + 1) = 2 ^ (e + 1) := by rw [blockSize]; congr 1; omega
    by_cases h12 : e = 12
    · subst h12
      have hv : size.toNat = 4096 := by omega
      rw [bsnum_eq (n := 8) (by omega) (.inr ⟨rfl, by rw [hv]; rfl⟩), hv]
      decide
    rw [bsnum_eq (n := e - 4) (by omega) (.inl (by omega))]
    split
    · rw [hsize']
      omega
    rename_i hmod
    rw [hsize] at hmod ⊢
    -- nothing is left over, so it is the power of two itself
    obtain ⟨q, hq⟩ := dvd_of_mod_eq_zero (not_not.mp hmod)
    have hq2 : q < 2 := by
      by_contra hge
      have : 2 ^ e * 2 ≤ 2 ^ e * q := mul_le_mul_left _ (by omega)
      omega
    have : 2 ^ e * q ≤ 2 ^ e * 1 := mul_le_mul_left _ (by omega)
    omega

/-! ## 2. Pieces of memory -/

/-- A block of size number `b` at address `a`, in a page that was cut up. -/
structure Malloc.Small (m : Malloc) (b : Fin maxBs) (a : Nat) : Prop where
  held : (m.held (pageOf a)).isSome
  bs : m.bs (pageOf a) = BitVec.ofNat 16 b.val
  dvd : blockSize b.val ∣ a

/-- A run of `n` pages from page `pg` on. -/
structure Malloc.RunAt (m : Malloc) (pg n : Nat) : Prop where
  two_le : 2 ≤ n
  lt : n < 256
  head : m.bs pg = BitVec.ofNat 16 (n * 2 ^ 8 + maxBs)
  tail : ∀ p, pg < p → p < pg + n → m.bs p = BitVec.ofNat 16 maxBs
  held : ∀ p, pg ≤ p → p < pg + n → (m.held p).isSome

/-- `len` bytes from `a` on are one piece. -/
inductive Malloc.Piece (m : Malloc) : Nat → Nat → Prop where
  | small {b : Fin maxBs} {a : Nat} (h : m.Small b a) : Piece m a (blockSize b.val)
  | run {pg n : Nat} (h : m.RunAt pg n) : Piece m (pg * 4096) (n * 4096)

theorem ofNat16_inj {x y : Nat} (hx : x < 65536) (hy : y < 65536)
    (h : BitVec.ofNat 16 x = BitVec.ofNat 16 y) : x = y := by
  have := congrArg BitVec.toNat h
  simp only [BitVec.toNat_ofNat] at this
  omega

namespace Malloc

variable {m m' : Malloc} {b b' : Fin maxBs} {a a' pg pg' n n' : Nat}

theorem label_inj (h : BitVec.ofNat 16 b.val = BitVec.ofNat 16 b'.val) : b = b' := by
  have hb : b.val < 9 := b.isLt
  have hb' : b'.val < 9 := b'.isLt
  exact Fin.ext (ofNat16_inj (by omega) (by omega) h)

/-- The label of a page decides the size of its blocks. -/
theorem Small.size_unique (h : m.Small b a) (h' : m.Small b' a') (hp : pageOf a = pageOf a') :
    b = b' := by
  have hbs := h.bs
  rw [hp, h'.bs] at hbs
  exact (label_inj hbs).symm

theorem Small.in_page (h : m.Small b a) :
    pageOf a * 4096 ≤ a ∧ a + blockSize b.val ≤ (pageOf a + 1) * 4096 := by
  unfold pageOf
  refine ⟨div_mul_le_self a 4096, ?_⟩
  obtain ⟨k, hk⟩ := blockSize_dvd b
  obtain ⟨j, hj⟩ := h.dvd
  have hlt : a < (a / 4096 + 1) * 4096 := by omega
  -- both ends are multiples of the block size
  have hend : (a / 4096 + 1) * 4096 = blockSize b.val * (k * (a / 4096 + 1)) := by
    rw [← mul_assoc, ← hk, mul_comm]
  rw [hend] at hlt ⊢
  have hjk : j < k * (a / 4096 + 1) :=
    lt_of_mul_lt_mul_left (lt_of_eq_of_lt hj.symm hlt) (zero_le _)
  calc a + blockSize b.val = blockSize b.val * (j + 1) := by rw [mul_succ, ← hj]
    _ ≤ blockSize b.val * (k * (a / 4096 + 1)) := mul_le_mul_left _ hjk

theorem Small.not_in_run (h : m.Small b a) (hr : m.RunAt pg n) :
    pageOf a < pg ∨ pg + n ≤ pageOf a := by
  by_contra hin
  have hb : b.val < 9 := b.isLt
  have hn := hr.lt
  have hbs := h.bs
  by_cases hhead : pageOf a = pg
  · rw [hhead, hr.head] at hbs
    have : n * 2 ^ 8 + 9 = b.val := ofNat16_inj (by omega) (by omega) hbs
    omega
  rw [hr.tail _ (by omega) (by omega)] at hbs
  have : maxBs = b.val := ofNat16_inj (by decide) (by omega) hbs
  omega

theorem RunAt.not_inside (h : m.RunAt pg n) (h' : m.RunAt pg' n') (hlt : pg < pg') :
    pg + n ≤ pg' := by
  by_contra hin
  have hn := h'.lt
  have hn' := h'.two_le
  have hbs := h'.head
  rw [h.tail _ hlt (by omega)] at hbs
  have : maxBs = n' * 2 ^ 8 + maxBs := ofNat16_inj (by decide) (by change _ + 9 < _; omega) hbs
  omega

theorem RunAt.length_unique (h : m.RunAt pg n) (h' : m.RunAt pg n') : n = n' := by
  have hn := h.lt
  have hn' := h'.lt
  have hbs := h.head
  rw [h'.head] at hbs
  have := ofNat16_inj (by change _ + 9 < _; omega) (by change _ + 9 < _; omega) hbs
  omega

/-- Pieces that begin at different addresses have no byte in common. -/
theorem Piece.disjoint {len len' : Nat} (h : m.Piece a len) (h' : m.Piece a' len')
    (hne : a ≠ a') : a + len ≤ a' ∨ a' + len' ≤ a := by
  cases h with
  | @small b _ h =>
    have hp := h.in_page
    cases h' with
    | @small b' _ h' =>
      have hp' := h'.in_page
      by_cases hpage : pageOf a = pageOf a'
      · -- two multiples of one block size
        obtain rfl := h.size_unique h' hpage
        obtain ⟨i, rfl⟩ := h.dvd
        obtain ⟨j, rfl⟩ := h'.dvd
        have hij : i ≠ j := fun he => hne (by rw [he])
        rcases lt_or_gt_of_ne hij with hlt | hlt
        · exact .inl (by rw [← mul_succ]; exact mul_le_mul_left _ hlt)
        · exact .inr (by rw [← mul_succ]; exact mul_le_mul_left _ hlt)
      · omega
    | @run pg n hr =>
      have := h.not_in_run hr
      omega
  | @run pg n hr =>
    cases h' with
    | @small b' _ h' =>
      have hp' := h'.in_page
      have := h'.not_in_run hr
      omega
    | @run pg' n' hr' =>
      have hpg : pg ≠ pg' := fun he => hne (by rw [he])
      rcases lt_or_gt_of_ne hpg with hlt | hlt
      · have := hr.not_inside hr' hlt
        omega
      · have := hr'.not_inside hr hlt
        omega

/-- A block whose page is still there with its label is still a block. -/
theorem Small.frame (h : m.Small b a) (hheld : (m'.held (pageOf a)).isSome)
    (hbs : m'.bs (pageOf a) = m.bs (pageOf a)) : m'.Small b a :=
  ⟨hheld, hbs.trans h.bs, h.dvd⟩

theorem RunAt.frame (h : m.RunAt pg n)
    (hm : ∀ p, pg ≤ p → p < pg + n → (m'.held p).isSome ∧ m'.bs p = m.bs p) : m'.RunAt pg n := by
  have h2 := h.two_le
  refine ⟨h2, h.lt, (hm pg (le_refl _) (by omega)).2.trans h.head, fun p hp hlt => ?_,
    fun p hp hlt => (hm p hp hlt).1⟩
  exact (hm p (le_of_lt hp) hlt).2.trans (h.tail p hp hlt)

end Malloc

/-! ## 3. Counting blocks -/

section
variable {m : Malloc} {b : Fin maxBs} {pg : Nat} {l : List Nat}

/-- The blocks that page `pg` is cut into. -/
def blocksOf (b pg : Nat) : Finset Nat :=
  (Finset.range (bppg b)).image fun i => pg * 4096 + i * blockSize b

theorem card_blocksOf_le (b pg : Nat) : (blocksOf b pg).card ≤ bppg b :=
  le_trans Finset.card_image_le (le_of_eq (Finset.card_range _))

theorem Malloc.Small.mem_blocksOf {a : Nat} (h : m.Small b a) (hpg : pageOf a = pg) :
    a ∈ blocksOf b.val pg := by
  obtain ⟨hlo, hhi⟩ := h.in_page
  rw [hpg] at hlo hhi
  obtain ⟨j, hj⟩ := h.dvd
  have hk := blockSize_mul_bppg b
  have hpos := blockSize_pos b.val
  have hstart : pg * 4096 = blockSize b.val * (pg * bppg b.val) := by
    rw [mul_left_comm, hk]
  have hend : (pg + 1) * 4096 = blockSize b.val * (pg * bppg b.val + bppg b.val) := by
    rw [mul_add, ← hstart, hk]
    exact succ_mul pg 4096
  have hle : pg * bppg b.val ≤ j := by
    rw [hstart, hj] at hlo
    exact le_of_mul_le_mul_left hlo hpos
  have hlt : j + 1 ≤ pg * bppg b.val + bppg b.val := by
    rw [hend, hj, ← mul_succ] at hhi
    exact le_of_mul_le_mul_left hhi hpos
  refine Finset.mem_image.mpr ⟨j - pg * bppg b.val, Finset.mem_range.mpr (by omega), ?_⟩
  rw [hstart, mul_comm (j - _), ← mul_add, hj]
  congr 1
  omega

theorem toFinset_filter_page_subset (pg : Nat) (hsmall : ∀ a ∈ l, m.Small b a) :
    (l.filter fun a => decide (pageOf a = pg)).toFinset ⊆ blocksOf b.val pg := by
  intro a ha
  simp only [List.mem_toFinset, List.mem_filter, decide_eq_true_eq] at ha
  exact (hsmall a ha.1).mem_blocksOf ha.2

theorem card_filter_page (hnodup : l.Nodup) :
    (l.filter fun a => decide (pageOf a = pg)).toFinset.card =
      l.countP fun a => decide (pageOf a = pg) := by
  rw [toFinset_card_of_nodup (hnodup.filter _), countP_eq_length_filter]

theorem countP_page_le (pg : Nat) (hsmall : ∀ a ∈ l, m.Small b a) (hnodup : l.Nodup) :
    (l.countP fun a => decide (pageOf a = pg)) ≤ bppg b.val := by
  rw [← card_filter_page hnodup]
  exact le_trans (Finset.card_le_card (toFinset_filter_page_subset pg hsmall))
    (card_blocksOf_le _ _)

/-- A page all of whose blocks are on the list has no other block. -/
theorem mem_of_countP_page_eq (hsmall : ∀ a ∈ l, m.Small b a) (hnodup : l.Nodup)
    (hall : (l.countP fun a => decide (pageOf a = pg)) = bppg b.val) {a : Nat}
    (ha : m.Small b a) (hpg : pageOf a = pg) : a ∈ l := by
  have hsub := toFinset_filter_page_subset pg hsmall
  have heq := Finset.eq_of_subset_of_card_le hsub
    (by rw [card_filter_page hnodup, hall]; exact card_blocksOf_le _ _)
  have hmem := ha.mem_blocksOf hpg
  rw [← heq] at hmem
  exact (mem_filter.mp (mem_toFinset.mp hmem)).1

/-- Physical memory has room for fewer than `2 ^ 32` blocks. -/
theorem length_blocks_le (hsmall : ∀ a ∈ l, m.Small b a) (hnodup : l.Nodup)
    (hbound : ∀ pg, (m.held pg).isSome → pg < 2 ^ 20) : l.length ≤ 2 ^ 28 := by
  have hsub : l.toFinset ⊆ (Finset.range (2 ^ 28)).image (16 * ·) := by
    intro a ha
    have hs := hsmall a (mem_toFinset.mp ha)
    obtain ⟨k, hk⟩ := dvd_trans (sixteen_dvd_blockSize b.val) hs.dvd
    have hpg : a / 4096 < 2 ^ 20 := hbound _ hs.held
    refine Finset.mem_image.mpr ⟨k, Finset.mem_range.mpr ?_, hk.symm⟩
    omega
  calc l.length = l.toFinset.card := (toFinset_card_of_nodup hnodup).symm
    _ ≤ ((Finset.range (2 ^ 28)).image (16 * ·)).card := Finset.card_le_card hsub
    _ ≤ 2 ^ 28 := le_trans Finset.card_image_le (le_of_eq (Finset.card_range _))

end

/-! ## 4. The invariant -/

/-- An outstanding pointer with the size that was asked for: a block that is on no list,
    or a run. -/
inductive Malloc.Owned (m : Malloc) (L : Fin maxBs → List Nat) (x : Nat × Nat) : Prop where
  | small {b : Fin maxBs} (h : m.Small b x.1) (hout : x.1 ∉ L b) (hsize : x.2 ≤ blockSize b.val)
  | run {pg n : Nat} (h : m.RunAt pg n) (hstart : x.1 = pg * 4096) (hsize : x.2 ≤ n * 4096)

/-- The labels, the lists `L` and the outstanding pointers fit together. -/
structure Sound (s : Alloc) (L : Fin maxBs → List Nat) : Prop where
  chain : ∀ b, Chain s.m.mem (s.m.list b) (L b)
  nodup : ∀ b, (L b).Nodup
  count : ∀ b, (s.m.free b).toNat = (L b).length
  small : ∀ b, ∀ a ∈ L b, s.m.Small b a
  pcfc : ∀ pg (b : Fin maxBs), (s.m.held pg).isSome → s.m.bs pg = BitVec.ofNat 16 b.val →
    (s.m.pcfc pg).toNat = (L b).countP fun a => decide (pageOf a = pg)
  starts : (s.out.map Prod.fst).Nodup
  out : ∀ x ∈ s.out, s.m.Owned L x
  bound : ∀ pg, (s.m.held pg).isSome → pg < 2 ^ 20
  runs : ∀ pg, s.m.held pg = some .allocN →
    ∃ x ∈ s.out, ∃ pg₀ n, s.m.RunAt pg₀ n ∧ x.1 = pg₀ * 4096 ∧ pg₀ ≤ pg ∧ pg < pg₀ + n

theorem pageOf_mul (pg : Nat) : pageOf (pg * 4096) = pg := by
  unfold pageOf
  omega

namespace Malloc

variable {m m' : Malloc} {L L' : Fin maxBs → List Nat} {x : Nat × Nat}

theorem Owned.piece (h : m.Owned L x) : ∃ len, m.Piece x.1 len ∧ x.2 ≤ len := by
  cases h with
  | small h _ hsize => exact ⟨_, .small h, hsize⟩
  | run h hstart hsize =>
    refine ⟨_, ?_, hsize⟩
    rw [hstart]
    exact .run h

theorem Owned.held (h : m.Owned L x) : (m.held (pageOf x.1)).isSome := by
  cases h with
  | small h _ _ => exact h.held
  | @run pg n h hstart _ =>
    have h2 := h.two_le
    rw [hstart, pageOf_mul]
    exact h.held pg (le_refl _) (by omega)

theorem Owned.not_mem (h : m.Owned L x) (hsmall : ∀ b, ∀ a ∈ L b, m.Small b a) (b : Fin maxBs) :
    x.1 ∉ L b := by
  intro hmem
  have hb := hsmall b _ hmem
  cases h with
  | small h hout _ =>
    obtain rfl := h.size_unique hb rfl
    exact hout hmem
  | run h hstart _ =>
    have hnot := hb.not_in_run h
    rw [hstart, pageOf_mul] at hnot
    have := h.two_le
    omega

/-- An outstanding pointer stays what it is when its pages keep their labels and no
    list takes it. -/
theorem Owned.frame (h : m.Owned L x) (hlist : ∀ b, x.1 ∉ L' b)
    (hpages : ∀ len, m.Piece x.1 len → ∀ p, pageOf x.1 ≤ p → p * 4096 < x.1 + len →
      (m'.held p).isSome ∧ m'.bs p = m.bs p) : m'.Owned L' x := by
  cases h with
  | @small b h _ hsize =>
    have hp := h.in_page
    obtain ⟨hheld, hbs⟩ := hpages _ (.small h) _ (le_refl _) (by
      have := blockSize_pos b.val
      omega)
    exact .small (h.frame hheld hbs) (hlist b) hsize
  | @run pg n h hstart hsize =>
    have hpiece : m.Piece x.1 (n * 4096) := by
      rw [hstart]
      exact .run h
    refine .run (h.frame fun p hp hlt => hpages _ hpiece p ?_ ?_) hstart hsize
    · rwa [hstart, pageOf_mul]
    · omega

end Malloc

/-! ## 5. `malloc` -/

/-- Pages that are held stay held and keep their labels. -/
def Malloc.Grows (m m' : Malloc) : Prop :=
  ∀ p, (m.held p).isSome → m'.held p = m.held p ∧ m'.bs p = m.bs p

namespace Malloc

variable {m m' : Malloc} {L L' : Fin maxBs → List Nat}

theorem Small.grow {b : Fin maxBs} {a : Nat} (h : m.Small b a) (hg : m.Grows m') :
    m'.Small b a :=
  h.frame ((hg _ h.held).1 ▸ h.held) (hg _ h.held).2

theorem RunAt.grow {pg n : Nat} (h : m.RunAt pg n) (hg : m.Grows m') : m'.RunAt pg n :=
  h.frame fun p hp hlt =>
    ⟨(hg p (h.held p hp hlt)).1 ▸ h.held p hp hlt, (hg p (h.held p hp hlt)).2⟩

theorem Owned.grow {x : Nat × Nat} (h : m.Owned L x) (hg : m.Grows m')
    (hlist : ∀ b, x.1 ∉ L' b) : m'.Owned L' x := by
  cases h with
  | @small b h _ hsize => exact .small (h.grow hg) (hlist b) hsize
  | run h hstart hsize => exact .run (h.grow hg) hstart hsize

end Malloc

namespace Sound

variable {s : Alloc} {L : Fin maxBs → List Nat}

theorem not_listed (h : Sound s L) {x : Nat × Nat} (hx : x ∈ s.out) (b : Fin maxBs) : x.1 ∉ L b :=
  (h.out x hx).not_mem h.small b

/-- A page that is cut up is in no run, and has blocks of one size. -/
theorem cut (h : Sound s L) {b : Fin maxBs} {a : Nat} (hs : s.m.Small b a) :
    (∀ b' a', s.m.Small b' a' → pageOf a' = pageOf a → b' = b) ∧
    (∀ pg n, s.m.RunAt pg n → ∀ p, pg ≤ p → p < pg + n → p ≠ pageOf a) ∧
    s.m.held (pageOf a) ≠ some .allocN := by
  have hrun : ∀ pg n, s.m.RunAt pg n → ∀ p, pg ≤ p → p < pg + n → p ≠ pageOf a := by
    rintro pg n hr p hlo hhi rfl
    have := hs.not_in_run hr
    omega
  refine ⟨fun b' a' hs' hp => hs'.size_unique hs hp, hrun, fun hN => ?_⟩
  obtain ⟨x, -, pg, n, hr, -, hlo, hhi⟩ := h.runs _ hN
  exact hrun pg n hr _ hlo hhi rfl

/-- **One page and its list change.** The page has no blocks of other sizes and is in no run; what
    is outstanding stays outstanding unless it is a block. -/
theorem onPage (h : Sound s L) {b : Fin maxBs} {pg : Nat} {l : List Nat} {m' : Malloc}
    {out' : List (Nat × Nat)}
    (hsize : ∀ b' a, s.m.Small b' a → pageOf a = pg → b' = b)
    (hrun : ∀ pg₀ n, s.m.RunAt pg₀ n → ∀ p, pg₀ ≤ p → p < pg₀ + n → p ≠ pg)
    (hsame : ∀ p, p ≠ pg → m'.held p = s.m.held p ∧ m'.bs p = s.m.bs p ∧ m'.pcfc p = s.m.pcfc p)
    (hlists : ∀ b', b' ≠ b → m'.list b' = s.m.list b' ∧ m'.free b' = s.m.free b' ∧
      ∀ a ∈ L b', m'.mem a = s.m.mem a)
    (hchain : Chain m'.mem (m'.list b) l) (hnodup : l.Nodup) (hcount : (m'.free b).toNat = l.length)
    (hsmall : ∀ a ∈ l, m'.Small b a)
    (hother : ∀ p, p ≠ pg → (l.countP fun a => decide (pageOf a = p)) =
      (L b).countP fun a => decide (pageOf a = p))
    (hpage : (m'.held pg).isSome → pg < 2 ^ 20 ∧ m'.held pg ≠ some .allocN ∧
      m'.bs pg = BitVec.ofNat 16 b.val ∧
      (m'.pcfc pg).toNat = l.countP fun a => decide (pageOf a = pg))
    (hstarts : (out'.map Prod.fst).Nodup)
    (hout : ∀ x ∈ out', m'.Owned (update L b l) x ∨ x ∈ s.out ∧ x.1 ∉ l ∧
      (∀ b', s.m.Small b' x.1 → m'.Small b' x.1))
    (hruns : ∀ x ∈ s.out, ∀ pg₀ n, s.m.RunAt pg₀ n → x.1 = pg₀ * 4096 → x ∈ out') :
    Sound ⟨m', out'⟩ (update L b l) := by
  have hkept : ∀ pg₀ n, s.m.RunAt pg₀ n → m'.RunAt pg₀ n := fun pg₀ n hr =>
    hr.frame fun p hlo hhi => by
      obtain ⟨hheld, hbs, -⟩ := hsame p (hrun pg₀ n hr p hlo hhi)
      exact ⟨hheld ▸ hr.held p hlo hhi, hbs⟩
  refine ⟨fun b' => ?_, (forall_update_iff L fun _ l => l.Nodup).mpr ⟨hnodup, fun b' _ => h.nodup b'⟩,
    fun b' => ?_, fun b' a ha => ?_, fun p b' hp hpb => ?_, hstarts, fun x hx => ?_, fun p hp => ?_, fun p hp => ?_⟩
  · by_cases hb : b' = b
    · subst hb; simpa using hchain
    · rw [update_of_ne hb, (hlists b' hb).1]
      exact (h.chain b').congr (hlists b' hb).2.2
  · by_cases hb : b' = b
    · subst hb; simpa using hcount
    · rw [update_of_ne hb, (hlists b' hb).2.1, h.count b']
  · by_cases hb : b' = b
    · subst hb
      exact hsmall a (by simpa using ha)
    · have hs := h.small b' a (by simpa [hb] using ha)
      obtain ⟨hheld, hbs, -⟩ := hsame _ fun hp => hb (hsize b' a hs hp)
      exact hs.frame (hheld ▸ hs.held) hbs
  · by_cases hpp : p = pg
    · subst hpp
      obtain ⟨-, -, hbs, hall⟩ := hpage hp
      obtain rfl : b' = b := Malloc.label_inj (hpb.symm.trans hbs)
      rwa [update_self]
    · obtain ⟨hheld, hbs, hpcfc⟩ := hsame p hpp
      rw [hpcfc, h.pcfc p b' (hheld ▸ hp) (hbs ▸ hpb)]
      by_cases hb : b' = b
      · subst hb; rw [update_self, hother p hpp]
      · rw [update_of_ne hb]
  · rcases hout x hx with ho | ⟨hx, hl, hs'⟩
    · exact ho
    cases h.out x hx with
    | @small b' hs hL hsz =>
      refine .small (hs' b' hs) ?_ hsz
      by_cases hb : b' = b
      · subst hb; simpa using hl
      · simpa [hb] using hL
    | run hr hstart hsz => exact .run (hkept _ _ hr) hstart hsz
  · by_cases hpp : p = pg
    · subst hpp
      exact (hpage hp).1
    · exact h.bound p ((hsame p hpp).1 ▸ hp)
  · have hpp : p ≠ pg := by
      rintro rfl
      exact (hpage (isSome_of_mem hp)).2.1 hp
    obtain ⟨x, hx, pg₀, n, hr, hstart, hin⟩ := h.runs p ((hsame p hpp).1 ▸ hp)
    exact ⟨x, hruns x hx pg₀ n hr hstart, pg₀, n, hkept pg₀ n hr, hstart, hin⟩

theorem takeBlock (h : Sound s L) {b : Fin maxBs} {r size : Nat} (hlist : s.m.list b = some r)
    (hsize : size ≤ blockSize b.val) :
    ∃ L', Sound
      ⟨{ s.m with
          list := update s.m.list b (s.m.mem r)
          free := update s.m.free b (s.m.free b - 1)
          pcfc := update s.m.pcfc (pageOf r) (s.m.pcfc (pageOf r) - 1) },
        (r, size) :: s.out⟩ L' := by
  obtain ⟨l, hL, hl⟩ : ∃ l, L b = r :: l ∧ Chain s.m.mem (s.m.mem r) l := by
    have hc := h.chain b
    cases hL : L b with
    | nil => rw [hL] at hc; exact nomatch hlist.symm.trans hc
    | cons a l =>
      rw [hL] at hc
      obtain rfl : r = a := some.inj (hlist.symm.trans hc.1)
      exact ⟨l, rfl, hc.2⟩
  have hr : s.m.Small b r := h.small b r (by simp [hL])
  obtain ⟨hrl, hnodup⟩ := nodup_cons.mp (hL ▸ h.nodup b)
  obtain ⟨hcut, hrun, hN⟩ := h.cut hr
  refine ⟨_, h.onPage (l := l) hcut hrun (fun p hp => ⟨rfl, rfl, update_of_ne hp _ _⟩)
    (fun b' hb => ⟨update_of_ne hb _ _, update_of_ne hb _ _, fun _ _ => rfl⟩) (by simpa using hl)
    hnodup ?_ (fun a ha => (h.small b a (by simp [hL, ha])).frame (h.small b a (by simp [hL, ha])).held rfl)
    (fun p hp => ?_) (fun hheld => ⟨h.bound _ hheld, hN, hr.bs, ?_⟩) ?_ (fun x hx => ?_)
    fun x hx _ _ _ _ => mem_cons_of_mem _ hx⟩
  · have hcount := h.count b
    rw [hL, length_cons] at hcount
    simp only [update_self]
    simp
    omega
  · rw [hL, countP_cons_of_neg (by simpa using Ne.symm hp)]
  · have hold := h.pcfc _ b hheld hr.bs
    rw [hL, countP_cons_of_pos (by simp)] at hold
    simp only [update_self]
    rw [BitVec.toNat_sub_of_le (by rw [BitVec.le_def]; simp; omega), hold]
    simp
  · refine nodup_cons.mpr ⟨fun hmem => ?_, h.starts⟩
    obtain ⟨x, hx, rfl⟩ := mem_map.mp hmem
    exact h.not_listed hx b (by simp [hL])
  · rcases mem_cons.mp hx with rfl | hx
    · exact .inl (.small (hr.frame hr.held rfl) (by simpa using hrl) hsize)
    · refine .inr ⟨hx, fun hin => ?_, fun b' hs => hs.frame hs.held rfl⟩
      exact h.not_listed hx b (by simp [hL, hin])

end Sound

/-- The blocks that are threaded make a list, and no other word is written. -/
theorem chain_linkBlocks {sz : Nat} (hsz : 0 < sz) (n : Nat) :
    ∀ (p : Nat) (mem : Nat → Option Nat),
      Chain (linkBlocks sz n p mem) (some p) ((List.range (n + 1)).map fun i => p + i * sz) ∧
        ∀ a, (∀ i, i ≤ n → a ≠ p + i * sz) → linkBlocks sz n p mem a = mem a := by
  induction n with
  | zero =>
    intro p mem
    refine ⟨by simp [linkBlocks, Chain], fun a ha => ?_⟩
    have hap : a ≠ p := by simpa using ha 0 (le_refl _)
    simp [linkBlocks, hap]
  | succ n ih =>
    intro p mem
    obtain ⟨hchain, hframe⟩ := ih (p + sz) (update mem p (some (p + sz)))
    have hp : linkBlocks sz (n + 1) p mem p = some (p + sz) := by
      rw [linkBlocks, hframe p fun i _ => by omega, update_self]
    refine ⟨?_, fun a ha => ?_⟩
    · rw [List.range_succ_eq_map, List.map_cons, List.map_map]
      refine ⟨by simp, ?_⟩
      rw [show p + 0 * sz = p by omega, hp]
      have hlist : (List.range (n + 1)).map ((fun i => p + i * sz) ∘ Nat.succ) =
          (List.range (n + 1)).map fun i => p + sz + i * sz := by
        refine map_congr_left fun i _ => ?_
        simp only [Function.comp_apply, succ_mul]
        omega
      rw [hlist]
      exact hchain
    · have hap : a ≠ p := by simpa using ha 0 (zero_le _)
      rw [linkBlocks, hframe a fun i hi => ?_, update_of_ne hap]
      have := ha (i + 1) (by omega)
      rw [succ_mul] at this
      omega

theorem pageOf_block (b : Fin maxBs) (pg : Nat) {i : Nat} (hi : i < bppg b.val) :
    pageOf (pg * 4096 + i * blockSize b.val) = pg := by
  have hlt : i * blockSize b.val < 4096 := by
    rw [← blockSize_mul_bppg b, mul_comm (blockSize b.val)]
    exact mul_lt_mul_of_pos_right hi (blockSize_pos _)
  unfold pageOf
  omega

/-- The blocks of a page that go on the list when it is cut up: all but the first. -/
def restOf (b pg : Nat) : List Nat :=
  (List.range (bppg b - 1)).map fun i => pg * 4096 + blockSize b + i * blockSize b

theorem mem_restOf {b pg a : Nat} :
    a ∈ restOf b pg ↔ ∃ i, 0 < i ∧ i < bppg b ∧ a = pg * 4096 + i * blockSize b := by
  simp only [restOf, List.mem_map, List.mem_range]
  constructor
  · rintro ⟨i, hi, rfl⟩
    exact ⟨i + 1, by omega, by omega, by rw [succ_mul]; omega⟩
  rintro ⟨i, h0, hi, rfl⟩
  obtain ⟨j, rfl⟩ := exists_eq_add_one.mpr h0
  exact ⟨j, by omega, by rw [succ_mul]; omega⟩

theorem nodup_restOf (b pg : Nat) : (restOf b pg).Nodup := by
  refine List.Nodup.map (fun i j hij => ?_) nodup_range
  have hmul : i * blockSize b = j * blockSize b := by simpa using hij
  exact eq_of_mul_eq_mul_right (blockSize_pos b) hmul

theorem bppg_le (b : Nat) : bppg b ≤ 256 :=
  Nat.pow_le_pow_right (n := 2) (by decide) (Nat.sub_le 8 b)

theorem bppg_pos (b : Nat) : 0 < bppg b := Nat.pow_pos (by decide)

namespace Sound

variable {s : Alloc} {L : Fin maxBs → List Nat}

/-- A fresh page is cut up. What is written into the page is only looked at through the
    new list. -/
theorem cutPage (h : Sound s L) {b : Fin maxBs} {pg size : Nat} {m' : Malloc}
    (hempty : s.m.list b = none) (hfresh : s.m.held pg = none) (hpg : pg < 2 ^ 20)
    (hsize : size ≤ blockSize b.val)
    (hheld : ∀ p, m'.held p = if p = pg then some .alloc else s.m.held p)
    (hbs : m'.bs = update s.m.bs pg (BitVec.ofNat 16 b.val))
    (hpcfc : m'.pcfc = update s.m.pcfc pg (BitVec.ofNat 16 (bppg b.val - 1)))
    (hchain : Chain m'.mem (m'.list b) (restOf b.val pg))
    (hmem : ∀ a, pageOf a ≠ pg → m'.mem a = s.m.mem a)
    (hlist : ∀ b', b' ≠ b → m'.list b' = s.m.list b')
    (hfree : (m'.free b).toNat = bppg b.val - 1)
    (hfree' : ∀ b', b' ≠ b → m'.free b' = s.m.free b') :
    Sound ⟨m', (pg * 4096, size) :: s.out⟩ (update L b (restOf b.val pg)) := by
  have hLb : L b = [] := (h.chain b).nil_iff.mp hempty
  have hother : ∀ p, (s.m.held p).isSome → p ≠ pg := by
    rintro p hp rfl
    rw [hfresh] at hp
    cases hp
  have hsame : ∀ p, p ≠ pg →
      m'.held p = s.m.held p ∧ m'.bs p = s.m.bs p ∧ m'.pcfc p = s.m.pcfc p := fun p hp =>
    ⟨by rw [hheld, if_neg hp], by rw [hbs, update_of_ne hp], by rw [hpcfc, update_of_ne hp]⟩
  have hsmall : ∀ i, i < bppg b.val → m'.Small b (pg * 4096 + i * blockSize b.val) := by
    intro i hi
    refine ⟨?_, ?_, ?_⟩
    · rw [pageOf_block b pg hi, hheld, if_pos rfl]; rfl
    · rw [pageOf_block b pg hi, hbs, update_self]
    · exact (Nat.dvd_add_right (dvd_trans (blockSize_dvd b) (Nat.dvd_mul_left _ _))).mpr
        (Nat.dvd_mul_left _ _)
  have hrest : ∀ a ∈ restOf b.val pg, m'.Small b a ∧ pageOf a = pg := by
    intro a ha
    obtain ⟨i, -, hi, rfl⟩ := mem_restOf.mp ha
    exact ⟨hsmall i hi, pageOf_block b pg hi⟩
  have hfirst : m'.Small b (pg * 4096) := by simpa using hsmall 0 (bppg_pos _)
  refine h.onPage (fun b' a hs hp => absurd hp (hother _ hs.held))
    (fun pg₀ n hr p hlo hhi => hother p (hr.held p hlo hhi)) hsame
    (fun b' hb => ⟨hlist b' hb, hfree' b' hb, fun a ha => hmem a (hother _ (h.small b' a ha).held)⟩)
    hchain (nodup_restOf _ _) (by simpa [restOf] using hfree) (fun a ha => (hrest a ha).1)
    (fun p hp => ?_) (fun _ => ⟨hpg, ?_, by rw [hbs, update_self], ?_⟩) ?_ (fun x hx => ?_)
    fun x hx _ _ _ _ => mem_cons_of_mem _ hx
  · rw [hLb, countP_nil, countP_eq_zero]
    intro a ha
    rw [(hrest a ha).2]
    simpa using Ne.symm hp
  · simp [hheld]
  · have hall : (restOf b.val pg).countP (fun a => decide (pageOf a = pg)) =
        (restOf b.val pg).length :=
      countP_eq_length.mpr fun a ha => by simpa using (hrest a ha).2
    have hle := bppg_le b.val
    rw [hall, hpcfc, update_self, BitVec.toNat_ofNat]
    simp only [restOf, length_map, length_range]
    omega
  · refine nodup_cons.mpr ⟨fun hmem => ?_, h.starts⟩
    obtain ⟨x, hx, hx1⟩ := mem_map.mp hmem
    -- the page would have been held before
    exact hother _ (h.out x hx).held (by rw [hx1, pageOf_mul])
  · rcases mem_cons.mp hx with rfl | hx
    · refine .inl (.small hfirst ?_ hsize)
      rw [update_self]
      intro hin
      obtain ⟨i, h0, -, hi⟩ := mem_restOf.mp hin
      have := mul_pos h0 (blockSize_pos b.val)
      omega
    · have hne := hother _ (h.out x hx).held
      obtain ⟨hheld', hbs', -⟩ := hsame _ hne
      exact .inr ⟨hx, fun hin => hne (hrest _ hin).2, fun b' hs => hs.frame (hheld' ▸ hs.held) hbs'⟩

theorem mallocPage (h : Sound s L) {b : Fin maxBs} {pg size : Nat} (hempty : s.m.list b = none)
    (hfresh : s.m.held pg = none) (hpg : pg < 2 ^ 20) (hsize : size ≤ blockSize b.val) :
    (Exokernel.mallocPage s.m b (some pg)).1 = some (pg * 4096) ∧
      ∃ L', Sound ⟨(Exokernel.mallocPage s.m b (some pg)).2, (pg * 4096, size) :: s.out⟩ L' := by
  have hmul := blockSize_mul_bppg b
  have hpos := blockSize_pos b.val
  have hle := bppg_le b.val
  have hzero : (s.m.free b).toNat = 0 := by
    rw [h.count b, (h.chain b).nil_iff.mp hempty]
    rfl
  have htake : ∀ p, (s.m.take .alloc pg 1).held p = if p = pg then some .alloc else s.m.held p := by
    intro p
    simp only [Malloc.take]
    by_cases hp : p = pg
    · subst hp; simp
    · rw [if_neg (by omega), if_neg hp]
  unfold Exokernel.mallocPage
  dsimp only
  split
  · rename_i hlt
    have htwo : 2 ≤ bppg b.val := by
      by_contra hone
      have : bppg b.val ≤ 1 := by omega
      have := mul_le_mul_left (blockSize b.val) this
      omega
    obtain ⟨hchain, hframe⟩ := chain_linkBlocks hpos (bppg b.val - 2)
      (pg * 4096 + blockSize b.val) s.m.mem
    refine ⟨rfl, _, h.cutPage hempty hfresh hpg hsize htake rfl rfl ?_ (fun a ha => hframe a ?_)
      (fun b' hb => update_of_ne hb _ _) ?_ fun b' hb => update_of_ne hb _ _⟩
    · rw [show bppg b.val - 2 + 1 = bppg b.val - 1 by omega] at hchain
      simpa [restOf] using hchain
    · rintro i hi rfl
      refine ha ?_
      have := pageOf_block b pg (i := i + 1) (by omega)
      rwa [succ_mul, add_comm (i * _), ← add_assoc] at this
    · simp only [update_self, Malloc.take_free, BitVec.toNat_add, BitVec.toNat_ofNat, hzero]
      omega
  · rename_i hge
    have hone : bppg b.val = 1 := by
      have := bppg_pos b.val
      by_contra hne
      have := mul_le_mul_left (blockSize b.val) (by omega : 2 ≤ bppg b.val)
      omega
    refine ⟨rfl, _, h.cutPage hempty hfresh hpg hsize htake rfl rfl ?_ (fun _ _ => rfl)
      (fun _ _ => rfl) ?_ fun _ _ => rfl⟩
    · simpa [restOf, hone, Chain] using hempty
    · change (s.m.free b).toNat = _
      rw [hzero, hone]

theorem takeRun (h : Sound s L) {pg n size : Nat} {m' : Malloc} (h2 : 2 ≤ n) (h256 : n < 256)
    (hfresh : ∀ p, pg ≤ p → p < pg + n → s.m.held p = none) (hpg : pg + n ≤ 2 ^ 20)
    (hsize : size ≤ n * 4096)
    (hheld : ∀ p, m'.held p = if pg ≤ p ∧ p < pg + n then some .allocN else s.m.held p)
    (hbs : ∀ p, m'.bs p = if p = pg then BitVec.ofNat 16 (n * 2 ^ 8 + maxBs)
      else if pg < p ∧ p < pg + n then BitVec.ofNat 16 maxBs else s.m.bs p)
    (hrest : m' = { s.m with held := m'.held, bs := m'.bs }) : Sound ⟨m', (pg * 4096, size) :: s.out⟩ L := by
  have hother : ∀ p, (s.m.held p).isSome → ¬ (pg ≤ p ∧ p < pg + n) := by
    rintro p hp ⟨hlo, hhi⟩
    rw [hfresh p hlo hhi] at hp
    cases hp
  have hgrow : s.m.Grows m' := fun p hp => by
    have hne := hother p hp
    refine ⟨by rw [hheld, if_neg hne], ?_⟩
    rw [hbs, if_neg (by omega), if_neg (by omega)]
  have hrun : m'.RunAt pg n := by
    refine ⟨h2, h256, by rw [hbs, if_pos rfl], fun p hlo hhi => ?_, fun p hlo hhi => ?_⟩
    · rw [hbs, if_neg (by omega), if_pos ⟨hlo, hhi⟩]
    · rw [hheld, if_pos ⟨hlo, hhi⟩]
      rfl
  refine ⟨fun b => ?_, h.nodup, fun b => ?_, fun b a ha => (h.small b a ha).grow hgrow,
    fun p b hp hpb => ?_, ?_, fun x hx => ?_, fun p hp => ?_, fun p hp => ?_⟩
  · rw [hrest]
    exact h.chain b
  · rw [hrest]
    exact h.count b
  · -- a page with a block size for a label is not one of the new ones
    have hb9 : b.val < 9 := b.isLt
    have hpb' : m'.bs p = BitVec.ofNat 16 b.val := hpb
    have hold : ¬ (pg ≤ p ∧ p < pg + n) := by
      rintro ⟨hlo, hhi⟩
      have hn9 : n * 2 ^ 8 + maxBs < 65536 := by change n * 2 ^ 8 + 9 < 65536; omega
      by_cases hp0 : p = pg
      · rw [hbs, if_pos hp0] at hpb'
        have : n * 2 ^ 8 + 9 = b.val := ofNat16_inj hn9 (by omega) hpb'
        omega
      rw [hbs, if_neg hp0, if_pos ⟨by omega, hhi⟩] at hpb'
      have : 9 = b.val := ofNat16_inj (by decide) (by omega) hpb'
      omega
    have hp' : (m'.held p).isSome := hp
    rw [hheld, if_neg hold] at hp'
    rw [hbs, if_neg (by omega), if_neg (by omega)] at hpb'
    rw [hrest]
    exact h.pcfc p b hp' hpb'
  · refine nodup_cons.mpr ⟨fun hin => ?_, h.starts⟩
    obtain ⟨x, hx, hx1⟩ := mem_map.mp hin
    have hpage := (h.out x hx).held
    rw [hx1, pageOf_mul, hfresh pg (le_refl _) (by omega)] at hpage
    cases hpage
  · rcases mem_cons.mp hx with rfl | hx
    · exact .run hrun rfl hsize
    · exact (h.out x hx).grow hgrow (h.not_listed hx)
  · have hp' : (m'.held p).isSome := hp
    by_cases hin : pg ≤ p ∧ p < pg + n
    · omega
    · rw [hheld, if_neg hin] at hp'
      exact h.bound p hp'
  · have hp' : m'.held p = some .allocN := hp
    by_cases hin : pg ≤ p ∧ p < pg + n
    · exact ⟨_, mem_cons_self, pg, n, hrun, rfl, hin⟩
    rw [hheld, if_neg hin] at hp'
    obtain ⟨x, hx, pg₀, n₀, hrun₀, hrest⟩ := h.runs p hp'
    exact ⟨x, mem_cons_of_mem _ hx, pg₀, n₀, hrun₀.grow hgrow, hrest⟩

end Sound

/-! ## 6. `free` -/

section
variable (m : Malloc) (pg n : Nat)

/-- The pages of the run lose their labels and go, and nothing else happens. -/
theorem freeRun_eq :
    freeRun m pg n =
      { m with
        bs := fun p => if pg ≤ p ∧ p < pg + n then 0 else m.bs p
        held := fun p => if pg ≤ p ∧ p < pg + n then none else m.held p } := by
  induction n generalizing m pg with
  | zero =>
    have hnone : ∀ p, ¬ (pg ≤ p ∧ p < pg + 0) := by omega
    simp only [freeRun, hnone, if_false]
  | succ n ih =>
    rw [freeRun, ih]
    simp only [Malloc.giveBack, Malloc.mk.injEq, true_and]
    constructor <;> funext p
    all_goals
      by_cases hp : p = pg
      · subst hp
        rw [if_neg (by omega), if_pos (by omega), update_self]
      · have hiff : (pg + 1 ≤ p ∧ p < pg + 1 + n) ↔ (pg ≤ p ∧ p < pg + (n + 1)) := by omega
        simp only [hiff, update_of_ne hp]

end

theorem Malloc.Piece.held {m : Malloc} {a len p : Nat} (h : m.Piece a len) (hlo : pageOf a ≤ p)
    (hhi : p * 4096 < a + len) : (m.held p).isSome := by
  cases h with
  | small h =>
    have hp := h.in_page
    obtain rfl : p = pageOf a := by omega
    exact h.held
  | run h =>
    rw [pageOf_mul] at hlo
    exact h.held p hlo (by omega)

namespace Sound

variable {s : Alloc} {L : Fin maxBs → List Nat}

theorem starts_filter (h : Sound s L) (p : Nat) :
    ((s.out.filter fun x => decide (x.1 ≠ p)).map Prod.fst).Nodup :=
  h.starts.sublist (List.filter_sublist.map _)

theorem freeRun (h : Sound s L) {pg n : Nat} (hr : s.m.RunAt pg n) :
    Sound ⟨Exokernel.freeRun s.m pg n, s.out.filter fun x => decide (x.1 ≠ pg * 4096)⟩ L := by
  have h2 := hr.two_le
  rw [freeRun_eq]
  have hsmall : ∀ b, ∀ a ∈ L b, ¬ (pg ≤ pageOf a ∧ pageOf a < pg + n) := by
    intro b a ha
    have := (h.small b a ha).not_in_run hr
    omega
  have hruns : ∀ {pg₀ n₀ : Nat}, s.m.RunAt pg₀ n₀ → pg₀ ≠ pg →
      ∀ p, pg₀ ≤ p → p < pg₀ + n₀ → ¬ (pg ≤ p ∧ p < pg + n) := by
    intro pg₀ n₀ hr₀ hne p hlo hhi
    rcases lt_or_gt_of_ne hne with hlt | hlt
    · have := hr₀.not_inside hr hlt
      omega
    · have := hr.not_inside hr₀ hlt
      omega
  have hgone : ∀ {p : Nat}, (if pg ≤ p ∧ p < pg + n then none else s.m.held p).isSome →
      ¬ (pg ≤ p ∧ p < pg + n) := by
    intro p hp hin
    rw [if_pos hin] at hp
    cases hp
  refine ⟨h.chain, h.nodup, h.count, fun b a ha => ?_, fun p b hp hpb => ?_, h.starts_filter _,
    fun x hx => ?_, fun p hp => ?_, fun p hp => ?_⟩
  · have hs := h.small b a ha
    exact hs.frame (by simpa only [hsmall b a ha, if_false] using hs.held)
      (by simp only [hsmall b a ha, if_false])
  · have hin := hgone hp
    simp only [hin, if_false] at hp hpb
    exact h.pcfc p b hp hpb
  · obtain ⟨hx, hne⟩ := mem_filter.mp hx
    have hne : x.1 ≠ pg * 4096 := by simpa using hne
    refine (h.out x hx).frame (h.not_listed hx) fun len hpiece p hlo hhi => ?_
    have hout : ¬ (pg ≤ p ∧ p < pg + n) := by
      rcases hpiece.disjoint (.run hr) hne with hlt | hlt
      · omega
      · have : pg + n ≤ pageOf x.1 := by unfold pageOf; omega
        omega
    simp only [hout, if_false]
    exact ⟨hpiece.held hlo hhi, trivial⟩
  · simp only [hgone hp, if_false] at hp
    exact h.bound p hp
  · have hin := hgone (isSome_of_mem hp)
    simp only [hin, if_false] at hp
    obtain ⟨x, hx, pg₀, n₀, hr₀, hstart, hlo, hhi⟩ := h.runs p hp
    have hne : pg₀ ≠ pg := by
      rintro rfl
      obtain rfl := hr₀.length_unique hr
      exact hin ⟨hlo, hhi⟩
    refine ⟨x, mem_filter.mpr ⟨hx, ?_⟩, pg₀, n₀, hr₀.frame fun p' hlo' hhi' => ?_, hstart, hlo, hhi⟩
    · simp only [hstart, ne_eq, decide_eq_true_eq]
      omega
    have hout := hruns hr₀ hne p' hlo' hhi'
    simp only [hout, if_false]
    exact ⟨hr₀.held p' hlo' hhi', trivial⟩

theorem giveBlock (h : Sound s L) {b : Fin maxBs} {p : Nat} (hp : s.m.Small b p)
    (hout : p ∉ L b) (hnot : ∀ b', p ∉ L b') :
    Sound
      ⟨{ s.m with
          pcfc := update s.m.pcfc (pageOf p) (s.m.pcfc (pageOf p) + 1)
          mem := update s.m.mem p (s.m.list b)
          list := update s.m.list b (some p)
          free := update s.m.free b (s.m.free b + 1) },
        s.out.filter fun x => decide (x.1 ≠ p)⟩
      (update L b (p :: L b)) := by
  obtain ⟨hcut, hrun, hN⟩ := h.cut hp
  refine h.onPage hcut hrun (fun pg hpg => ⟨rfl, rfl, update_of_ne hpg _ _⟩)
    (fun b' hb => ⟨update_of_ne hb _ _, update_of_ne hb _ _, fun a ha => update_of_ne ?_ _ _⟩)
    ?_ (nodup_cons.mpr ⟨hout, h.nodup b⟩) ?_ (fun a ha => ?_) (fun pg hpg => ?_)
    (fun hheld => ⟨h.bound _ hheld, hN, hp.bs, ?_⟩) (h.starts_filter p) (fun x hx => ?_)
    fun x hx pg₀ n hr hstart => ?_
  · rintro rfl
    exact hnot b' ha
  · simp only [update_self]
    exact ⟨rfl, by rw [update_self]; exact (h.chain b).update hout _⟩
  · have hlen := length_blocks_le (h.small b) (h.nodup b) h.bound
    have hcount := h.count b
    simp only [update_self, length_cons, BitVec.toNat_add]
    have hone : (1 : BitVec 32).toNat = 1 := rfl
    omega
  · rcases mem_cons.mp ha with rfl | ha
    · exact hp.frame hp.held rfl
    · exact (h.small b a ha).frame (h.small b a ha).held rfl
  · rw [countP_cons_of_neg (by simpa using Ne.symm hpg)]
  · have hold := h.pcfc _ b hheld hp.bs
    have hle := countP_page_le (pageOf p) (h.small b) (h.nodup b)
    have hb := bppg_le b.val
    have hone : (1 : BitVec 16).toNat = 1 := rfl
    simp only [update_self, BitVec.toNat_add]
    rw [countP_cons_of_pos (by simp)]
    omega
  · obtain ⟨hx, hne⟩ := mem_filter.mp hx
    have hne : x.1 ≠ p := by simpa using hne
    refine .inr ⟨hx, fun hin => ?_, fun b' hs => hs.frame hs.held rfl⟩
    exact (mem_cons.mp hin).elim hne (h.not_listed hx b)
  · refine mem_filter.mpr ⟨hx, ?_⟩
    have h2 := hr.two_le
    have hpage := hrun pg₀ n hr pg₀ (le_refl _) (by omega)
    have hne : x.1 ≠ p := by
      rintro rfl
      exact hpage (by rw [hstart, pageOf_mul])
    simpa using hne

/-- A page all of whose blocks are free goes back. -/
theorem recycle (h : Sound s L) {b : Fin maxBs} {pg : Nat} (hheld : (s.m.held pg).isSome)
    (hbs : s.m.bs pg = BitVec.ofNat 16 b.val) (hfull : (s.m.pcfc pg).toNat = bppg b.val) :
    ∃ m', Exokernel.recycle s.m b pg = some m' ∧ ∃ L', Sound ⟨m', s.out⟩ L' := by
  have hcountP : (L b).countP (fun a => decide (pageOf a = pg)) = bppg b.val :=
    (h.pcfc pg b hheld hbs).symm.trans hfull
  obtain ⟨a₀, ha₀, ha₀pg⟩ : ∃ a ∈ L b, pageOf a = pg := by
    have hpos := bppg_pos b.val
    rw [← hcountP] at hpos
    obtain ⟨a, ha, hpa⟩ := countP_pos_iff.mp hpos
    exact ⟨a, ha, by simpa using hpa⟩
  -- nothing else lives in the page
  obtain ⟨hcut, hrun, -⟩ := h.cut (h.small b a₀ ha₀)
  rw [ha₀pg] at hcut hrun
  have hnil : Chain s.m.mem (s.m.list b) ([] ++ L b) := h.chain b
  obtain ⟨t, ht, hchain, hframe⟩ := Chain.sweep_spec
    (fun a => decide (pageOf a = pg)) (s.m.free b).toNat
    ⟨s.m.list b, s.m.mem⟩ [] (L b) hnil (h.nodup b) (by simp)
    (le_of_eq (h.count b).symm)
  rw [← (h.chain b).head_eq] at ht
  rw [show ([] : List Nat).getLast? = none from rfl] at ht
  refine ⟨_, by rw [Exokernel.recycle, ht]; rfl,
    update L b ((L b).filter fun a => !decide (pageOf a = pg)), ?_⟩
  have hsame : ∀ p, p ≠ pg → (Malloc.giveBack { s.m with
        list := update s.m.list b t.head
        mem := t.next
        free := update s.m.free b (s.m.free b - BitVec.ofNat 32 (bppg b.val)) } pg).held p =
      s.m.held p ∧ update s.m.bs pg 0 p = s.m.bs p := fun p hp => by
    simp [Malloc.giveBack, hp]
  refine h.onPage hcut hrun (fun p hp => ⟨(hsame p hp).1, (hsame p hp).2, rfl⟩)
    (fun b' hb => ⟨update_of_ne hb _ _, update_of_ne hb _ _, fun a ha => hframe a fun hin => ?_⟩)
    (by simpa [Malloc.giveBack] using hchain) ((h.nodup b).filter _) ?_ (fun a ha => ?_)
    (fun p hp => ?_) (fun hp => ?_) h.starts (fun x hx => ?_) fun x hx _ _ _ _ => hx
  · exact hb ((h.small b' a ha).size_unique (h.small b a hin) rfl)
  · have hcount := h.count b
    have hle := bppg_le b.val
    have hsum := length_eq_countP_add_countP (fun a => decide (pageOf a = pg)) (l := L b)
    have hfilter : ((L b).filter fun a => !decide (pageOf a = pg)).length =
        (L b).countP fun a => decide ¬ decide (pageOf a = pg) = true := by
      rw [countP_eq_length_filter]
      congr 1
      refine filter_congr fun a _ => ?_
      by_cases ha : pageOf a = pg <;> simp [ha]
    simp only [Malloc.giveBack, update_self]
    have hof : (BitVec.ofNat 32 (bppg b.val)).toNat = bppg b.val := mod_eq_of_lt (by omega)
    rw [BitVec.toNat_sub_of_le (by rw [BitVec.le_def]; omega), hof, hfilter]
    omega
  · obtain ⟨ha, hne⟩ := mem_filter.mp ha
    obtain ⟨hheld', hbs'⟩ := hsame (pageOf a) (by simpa using hne)
    exact (h.small b a ha).frame (hheld' ▸ (h.small b a ha).held) hbs'
  · rw [countP_filter]
    refine countP_congr fun a _ => ?_
    by_cases ha : pageOf a = p
    · simp [ha, hp]
    · simp [ha]
  · simp [Malloc.giveBack] at hp
  · refine .inr ⟨hx, fun hin => ?_, fun b' hs => ?_⟩
    · exact h.not_listed hx b (mem_filter.mp hin).1
    have hne : pageOf x.1 ≠ pg := fun hpg => by
      obtain rfl := hcut b' _ hs hpg
      exact h.not_listed hx b'
        (mem_of_countP_page_eq (h.small b') (h.nodup b') hcountP hs hpg)
    exact hs.frame ((hsame _ hne).1 ▸ hs.held) (hsame _ hne).2

end Sound

/-! ## 7. Every call -/

theorem roundUp_le (v : Nat) : v ≤ (v + 4095) / 4096 * 4096 := by omega

theorem runLabel {n : Nat} (hn : n < 256) :
    BitVec.ofNat 16 (n * 2 ^ 8 + maxBs) &&& 0xff = BitVec.ofNat 16 maxBs ∧
      (BitVec.ofNat 16 (n * 2 ^ 8 + maxBs) >>> 8).toNat = n := by
  have hval : (BitVec.ofNat 16 (n * 2 ^ 8 + maxBs)).toNat = n * 2 ^ 8 + 9 := by
    exact mod_eq_of_lt (by change n * 2 ^ 8 + 9 < 2 ^ 16; omega)
  refine ⟨BitVec.eq_of_toNat_eq ?_, ?_⟩
  · rw [BitVec.toNat_and, hval, show (0xff : BitVec 16).toNat = 2 ^ 8 - 1 from rfl,
      and_two_pow_sub_one_eq_mod]
    change _ = 9
    omega
  · rw [BitVec.toNat_ushiftRight, hval, shiftRight_eq_div_pow]
    omega

theorem blockLabel (b : Fin maxBs) :
    BitVec.ofNat 16 b.val &&& 0xff ≠ BitVec.ofNat 16 maxBs ∧
      (BitVec.ofNat 16 b.val).toNat = b.val := by
  revert b
  decide

/-- How many bytes the allocator thinks a pointer it handed out has. -/
def Malloc.extent (m : Malloc) (p : Nat) : Nat :=
  let bs := m.bs (pageOf p)
  if bs &&& 0xff = BitVec.ofNat 16 maxBs then (bs >>> 8).toNat * 4096 else blockSize bs.toNat

theorem Malloc.Piece.extent_eq {m : Malloc} {a len : Nat} (h : m.Piece a len) :
    m.extent a = len := by
  unfold Malloc.extent
  cases h with
  | @small b _ h =>
    have hl := blockLabel b
    simp only [h.bs, if_neg hl.1, hl.2]
  | @run pg n h =>
    have hl := runLabel h.lt
    simp only [pageOf_mul, h.head, if_pos hl.1, hl.2]

namespace Sound

variable {s : Alloc} {L : Fin maxBs → List Nat}

theorem malloc (h : Sound s L) {size : BitVec 32} {page : Option Nat}
    (hvalid : (AllocOp.malloc size page).Valid s) (hfits : size.toNat ≤ 255 * 4096) :
    ∃ t, (AllocOp.malloc size page).exec s = some t ∧ ∃ L', Sound t L' := by
  dsimp only [AllocOp.exec]
  unfold Exokernel.malloc
  by_cases h0 : size = 0
  · rw [if_pos h0]
    exact ⟨_, rfl, L, h⟩
  rw [if_neg h0]
  by_cases hbig : 4096 < size
  · rw [if_pos hbig]
    cases page with
    | none => exact ⟨_, rfl, L, h⟩
    | some pg =>
      have hlt : 4096 < size.toNat := hbig
      have hbsn : ((size + 4095) / 4096).toNat = (size.toNat + 4095) / 4096 := by
        change (size.toNat + 4095) % 2 ^ 32 / 4096 = _
        rw [mod_eq_of_lt (by omega)]
      have hpages : pagesFor size = (size.toNat + 4095) / 4096 := by
        unfold pagesFor
        rw [if_pos hbig]
        simp only [hbsn]
        rw [if_neg (by omega)]
      obtain ⟨hpg, hfresh⟩ := hvalid pg rfl
      rw [hpages] at hpg hfresh
      refine ⟨_, rfl, L, h.takeRun (n := (size.toNat + 4095) / 4096) (by omega) (by omega) hfresh
        hpg (roundUp_le _) (fun p => ?_) (fun p => ?_) rfl⟩
      · simp only [mallocRun, Malloc.take, hpages]
      · simp only [mallocRun, hbsn]
        rfl
  · rw [if_neg hbig]
    have hle : size.toNat ≤ 4096 := Nat.le_of_not_lt hbig
    obtain ⟨hb, hsize⟩ := bsnum_spec h0 hle
    rw [dif_pos hb]
    dsimp only
    cases hlist : s.m.list ⟨bsnum size, hb⟩ with
    | some r => exact ⟨_, rfl, h.takeBlock hlist hsize⟩
    | none =>
      cases page with
      | none => exact ⟨_, rfl, L, h⟩
      | some pg =>
        have hpages : pagesFor size = 1 := by rw [pagesFor, if_neg hbig]
        obtain ⟨hpg, hfresh⟩ := hvalid pg rfl
        obtain ⟨hr, hsound⟩ := h.mallocPage (b := ⟨bsnum size, hb⟩) hlist
          (hfresh pg (le_refl _) (by omega)) (by omega) hsize
        refine ⟨_, rfl, ?_⟩
        simp only [hr]
        exact hsound

theorem free (h : Sound s L) {p : Nat} (hvalid : (AllocOp.free p).Valid s) :
    ∃ t, (AllocOp.free p).exec s = some t ∧ ∃ L', Sound t L' := by
  obtain ⟨x, hx, rfl⟩ := hvalid
  dsimp only [AllocOp.exec]
  unfold Exokernel.free
  cases h.out x hx with
  | @small b hs hout _ =>
    have hl := blockLabel b
    have hnone : (s.m.held (pageOf x.1)).isNone = false := by
      rw [← Option.not_isSome, hs.held]
      rfl
    have hval : (s.m.bs (pageOf x.1)).toNat = b.val := by rw [hs.bs, hl.2]
    have hlt : (s.m.bs (pageOf x.1)).toNat < maxBs := hval ▸ b.isLt
    rw [if_neg (by rw [hs.bs]; exact hl.1), if_neg (by simp [hnone]), dif_pos hlt]
    simp only [hval]
    have hput := h.giveBlock hs hout (h.not_listed hx)
    split
    · rename_i hfull
      obtain ⟨m', hm', hsound⟩ := hput.recycle hs.held hs.bs hfull.1
      exact ⟨_, by rw [hm']; rfl, hsound⟩
    · exact ⟨_, rfl, _, hput⟩
  | @run pg n hr hstart _ =>
    have hl := runLabel hr.lt
    have hbs : s.m.bs (pageOf x.1) = BitVec.ofNat 16 (n * 2 ^ 8 + maxBs) := by
      rw [hstart, pageOf_mul, hr.head]
    rw [if_pos (by rw [hbs]; exact hl.1)]
    refine ⟨_, rfl, L, ?_⟩
    simp only [hbs, hl.2]
    rw [hstart, pageOf_mul]
    exact h.freeRun hr

/-- A caller writes into its own block, and no link is there. -/
theorem store (h : Sound s L) {a : Nat} {v : Option Nat} (hvalid : (AllocOp.store a v).Valid s) :
    Sound { s with m := { s.m with mem := update s.m.mem a v } } L := by
  obtain ⟨x, hx, hlo, hhi⟩ := hvalid
  obtain ⟨len, hpiece, hlen⟩ := (h.out x hx).piece
  have hnot : ∀ b, a ∉ L b := by
    intro b hin
    have hs := h.small b a hin
    have hne : a ≠ x.1 := by
      rintro rfl
      exact h.not_listed hx b hin
    have hpos := blockSize_pos b.val
    rcases (Malloc.Piece.small hs).disjoint hpiece hne with hlt | hlt <;> omega
  have hgrow : s.m.Grows { s.m with mem := update s.m.mem a v } := fun _ _ => ⟨rfl, rfl⟩
  refine ⟨fun b => (h.chain b).update (hnot b) v, h.nodup, h.count,
    fun b a ha => (h.small b a ha).grow hgrow, h.pcfc, h.starts,
    fun y hy => (h.out y hy).grow hgrow (h.not_listed hy), h.bound,
    fun pg hpg => ?_⟩
  obtain ⟨y, hy, pg₀, n, hr, hrest⟩ := h.runs pg hpg
  exact ⟨y, hy, pg₀, n, hr.grow hgrow, hrest⟩

theorem init (mem : Nat → Option Nat) (bs pcfc : Nat → BitVec 16) :
    Sound ⟨Malloc.init mem bs pcfc, []⟩ fun _ => [] := by
  refine ⟨fun _ => rfl, fun _ => nodup_nil, fun _ => rfl, fun _ a ha => ?_,
    fun _ _ hp => ?_, nodup_nil, fun _ hx => ?_, fun _ hp => ?_, fun _ hp => ?_⟩
  · cases ha
  · cases hp
  · cases hx
  · cases hp
  · cases hp

end Sound

/-! ## 8. Every run -/

/-- The request is for at most 255 pages. -/
def AllocOp.Fits : AllocOp → Prop
  | .malloc size _ => size.toNat ≤ 255 * 4096
  | _ => True

/-- A valid call that fits returns, and the invariant is kept. -/
theorem Sound.exec {s : Alloc} {L : Fin maxBs → List Nat} (h : Sound s L) {op : AllocOp}
    (hvalid : op.Valid s) (hfits : op.Fits) :
    ∃ t, op.exec s = some t ∧ ∃ L', Sound t L' := by
  cases op with
  | malloc size page => exact h.malloc hvalid hfits
  | free p => exact h.free hvalid
  | store a v => exact ⟨_, rfl, L, h.store hvalid⟩

/-- In every run of valid calls from `malloc_init` on that fit: no pointer is
    outstanding twice, every outstanding block is as large as was asked for and lies in
    pages that are held, and no two overlap; the length of each free list and the
    number of each page's blocks on it are what the counters say; when nothing is
    outstanding no page of `ppage_alloc_n` is held; and the next call returns. -/
theorem malloc_exact {mem : Nat → Option Nat} {bs pcfc : Nat → BitVec 16} {s : Alloc}
    (hrun : Run.Reaches (fun s (op : AllocOp) t => op.exec s = some t)
      (fun s op => op.Valid s ∧ op.Fits) ⟨Malloc.init mem bs pcfc, []⟩ s) :
    (s.out.map Prod.fst).Nodup ∧
    (∀ x ∈ s.out, x.2 ≤ s.m.extent x.1 ∧
      ∀ p, pageOf x.1 ≤ p → p * 4096 < x.1 + s.m.extent x.1 → (s.m.held p).isSome) ∧
    (∀ x ∈ s.out, ∀ y ∈ s.out, x.1 ≠ y.1 →
      x.1 + s.m.extent x.1 ≤ y.1 ∨ y.1 + s.m.extent y.1 ≤ x.1) ∧
    (∀ b, ∃ l, Chain s.m.mem (s.m.list b) l ∧ (s.m.free b).toNat = l.length ∧
      ∀ pg, (s.m.held pg).isSome → s.m.bs pg = BitVec.ofNat 16 b.val →
        (s.m.pcfc pg).toNat = l.countP fun a => decide (pageOf a = pg)) ∧
    (s.out = [] → ∀ pg, s.m.held pg ≠ some .allocN) ∧
    ∀ op : AllocOp, op.Valid s → op.Fits → (op.exec s).isSome := by
  obtain ⟨L, h⟩ : ∃ L, Sound s L := by
    refine hrun.invariant (I := fun s => ∃ L, Sound s L) ⟨_, Sound.init mem bs pcfc⟩ ?_
    rintro s op t ⟨L, h⟩ ⟨hvalid, hfits⟩ hexec
    obtain ⟨t', ht', hsound⟩ := h.exec hvalid hfits
    obtain rfl : t' = t := some.inj (ht'.symm.trans hexec)
    exact hsound
  refine ⟨h.starts, fun x hx => ?_, fun x hx y hy hne => ?_, fun b => ?_, fun hout pg hpg => ?_,
    fun op hvalid hfits => ?_⟩
  · obtain ⟨len, hpiece, hlen⟩ := (h.out x hx).piece
    rw [hpiece.extent_eq]
    exact ⟨hlen, fun p => hpiece.held⟩
  · obtain ⟨len, hpiece, -⟩ := (h.out x hx).piece
    obtain ⟨len', hpiece', -⟩ := (h.out y hy).piece
    rw [hpiece.extent_eq, hpiece'.extent_eq]
    exact hpiece.disjoint hpiece' hne
  · exact ⟨L b, h.chain b, h.count b, fun pg hheld hbs => h.pcfc pg b hheld hbs⟩
  · obtain ⟨x, hx, -⟩ := h.runs pg hpg
    rw [hout] at hx
    cases hx
  · obtain ⟨t, ht, -⟩ := h.exec hvalid hfits
    exact isSome_iff_exists.mpr ⟨t, ht⟩

/-- The allocator after `malloc_init`. -/
def freshAlloc : Alloc := ⟨Malloc.init (fun _ => none) (fun _ => 0) fun _ => 0, []⟩

/-- After a request for 100 bytes, which are cut from page 16, the 128 bytes at the
    start of the page are outstanding. -/
theorem malloc_exact_block :
    ∃ s, (AllocOp.malloc 100 (some 16)).exec freshAlloc = some s ∧ s.out = [(16 * 4096, 100)] ∧
      s.m.extent (16 * 4096) = 128 ∧
      ∀ x ∈ s.out, x.2 ≤ s.m.extent x.1 := by
  have hone : pagesFor 100 = 1 := rfl
  have hvalid : (AllocOp.malloc 100 (some 16)).Valid freshAlloc := by
    intro pg hpg
    cases hpg
    exact ⟨by rw [hone]; decide, fun _ _ _ => rfl⟩
  have hfits : (AllocOp.malloc 100 (some 16)).Fits := by
    change (100 : BitVec 32).toNat ≤ 255 * 4096
    decide
  have hend : ((AllocOp.malloc 100 (some 16)).exec freshAlloc).map
      (fun s => (s.out, s.m.extent (16 * 4096))) = some ([(16 * 4096, 100)], 128) := by
    decide +kernel
  obtain ⟨s, hs, heq⟩ := map_eq_some_iff.mp hend
  obtain ⟨hout, hext⟩ := Prod.mk.inj heq
  have hrun : Run.Reaches (fun s (op : AllocOp) t => op.exec s = some t)
      (fun s op => op.Valid s ∧ op.Fits) freshAlloc s := .call .refl ⟨hvalid, hfits⟩ hs
  exact ⟨s, hs, hout, hext, fun x hx => ((malloc_exact hrun).2.1 x hx).1⟩

/-- A request for 256 pages, freed again: nothing is outstanding and all its pages are
    still held. -/
theorem malloc_run_lost :
    ∃ s, Run.Reaches (fun s (op : AllocOp) t => op.exec s = some t) (fun s op => op.Valid s)
        freshAlloc s ∧ s.out = [] ∧ ∀ pg, 16 ≤ pg → pg < 16 + 256 → s.m.held pg = some .allocN := by
  have hpages : pagesFor 0x100000 = 256 := by decide
  refine ⟨⟨(mallocRun freshAlloc.m 0x100000 (some 16)).2, []⟩, ?_, rfl, fun pg hlo hhi => ?_⟩
  · refine Run.Reaches.call (i := .free (16 * 4096)) (t := ⟨_, [(16 * 4096, 0x100000)]⟩)
      (.call (i := .malloc 0x100000 (some 16)) .refl ?_ rfl) ⟨_, mem_singleton_self _, rfl⟩ ?_
    · intro pg hpg
      cases hpg
      exact ⟨by rw [hpages]; decide, fun _ _ _ => rfl⟩
    · rfl
  · simp only [mallocRun, Malloc.take, hpages]
    rw [if_pos ⟨hlo, hhi⟩]

end Exokernel
