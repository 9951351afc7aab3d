import Exokernel.Dpf.Build

/-!
# What a filter means, and what rewriting it must not change

A filter's atoms are read from the first to the last over one packet. A comparison loads the bytes
of its width, all of which must be there; a shift moves the base that the later offsets count from.
`accepts` says this of the atoms and `literal` of the calls that write them.

**`dpf_coalesce` is right if the atoms it joins keep to their width.** Two neighbours that abut become
one atom, whose mask and value are the two put side by side. If the first has bits above its width,
they fall on the second's. `dpf_insert` does not test for that.

The calls mean what they say as long as no computed shift follows a constant one (`InRange`), and
the translator reads what it was given if that consists of whole groups.
-/
set_option autoImplicit false

namespace Exokernel.Dpf

open Option List Nat

/-! ## 1. Packets -/

abbrev Packet := List (BitVec 8)

/-- The bytes as a little-endian number. -/
def leVal : Packet → Nat
  | [] => 0
  | b :: bs => b.toNat + 256 * leVal bs

theorem leVal_append (xs ys : Packet) :
    leVal (xs ++ ys) = leVal xs + 256 ^ xs.length * leVal ys := by
  induction xs with
  | nil => simp [leVal]
  | cons b xs ih =>
    simp only [cons_append, leVal, ih, length_cons, pow_succ]
    ring

theorem leVal_lt (xs : Packet) : leVal xs < 256 ^ xs.length := by
  induction xs with
  | nil => simp [leVal]
  | cons b xs ih =>
    have hb := b.isLt
    simp only [leVal, length_cons, pow_succ]
    omega

/-- The number in `w` bytes from `o` on. -/
def field (pkt : Packet) (o w : Nat) : BitVec 32 := BitVec.ofNat 32 (leVal ((pkt.drop o).take w))

/-- A masked load; there is none if a byte is missing. -/
def loadMasked (pkt : Packet) (o w : Nat) (mask : BitVec 32) : Option (BitVec 32) :=
  if o + w ≤ pkt.length then some (field pkt o w &&& mask) else none

/-- Whether the atoms, with offsets from `base` on, accept the packet. -/
def accepts : List Ir → Nat → Packet → Bool
  | [], _, _ => true
  | ir :: irs, base, pkt =>
    match loadMasked pkt (base + ir.offset.toNat) (ir.nbits.toNat / 8) ir.mask, ir.op with
    | some x, .eq => decide (x = ir.val) && accepts irs base pkt
    | some x, .shift =>
      let base := base + (x <<< (ir.shift.toNat % 32)).toNat
      decide (base ≤ pkt.length) && accepts irs base pkt
    | _, _ => false

variable {pkt : Packet} {base : Nat} {p q ir : Ir} {irs : List Ir}

/-- What a comparison asks of the packet. -/
def Passes (ir : Ir) (base : Nat) (pkt : Packet) : Prop :=
  loadMasked pkt (base + ir.offset.toNat) (ir.nbits.toNat / 8) ir.mask = some ir.val

instance : Decidable (Passes ir base pkt) := inferInstanceAs (Decidable (_ = _))

theorem accepts_eq (h : ir.op = .eq) :
    accepts (ir :: irs) base pkt = (decide (Passes ir base pkt) && accepts irs base pkt) := by
  cases hl : loadMasked pkt (base + ir.offset.toNat) (ir.nbits.toNat / 8) ir.mask with
  | none => simp [accepts, Passes, hl]
  | some x => simp [accepts, Passes, hl, h]

/-! ## 2. Words side by side -/

section
variable {a b m l v w : BitVec 32} {n k : Nat}

theorem getLsbD_of_toNat_lt (h : a.toNat < 2 ^ n) {i : Nat} (hi : n ≤ i) : a.getLsbD i = false :=
  Nat.testBit_lt_two_pow (h.trans_le (Nat.pow_le_pow_right (by decide) hi))

theorem toNat_beside (hnk : n + k ≤ 32) (ha : a.toNat < 2 ^ n) (hb : b.toNat < 2 ^ k) :
    (a ||| b <<< n).toNat = a.toNat + b.toNat * 2 ^ n := by
  have hlt : b.toNat <<< n < 2 ^ 32 := by
    rw [Nat.shiftLeft_eq]
    calc b.toNat * 2 ^ n < 2 ^ k * 2 ^ n := Nat.mul_lt_mul_of_pos_right hb (Nat.two_pow_pos n)
      _ = 2 ^ (n + k) := by rw [← pow_add, Nat.add_comm]
      _ ≤ 2 ^ 32 := Nat.pow_le_pow_right (by decide) hnk
  rw [BitVec.toNat_or, BitVec.toNat_shiftLeft, Nat.mod_eq_of_lt hlt, Nat.lor_comm,
    ← shiftLeft_add_eq_or_of_lt ha, shiftLeft_eq, add_comm]

theorem toNat_beside_lt (hnk : n + k ≤ 32) (ha : a.toNat < 2 ^ n) (hb : b.toNat < 2 ^ k) :
    (a ||| b <<< n).toNat < 2 ^ (n + k) := by
  rw [toNat_beside hnk ha hb]
  calc a.toNat + b.toNat * 2 ^ n < 2 ^ n + b.toNat * 2 ^ n := Nat.add_lt_add_right ha _
    _ = (b.toNat + 1) * 2 ^ n := by ring
    _ ≤ 2 ^ k * 2 ^ n := mul_le_mul_right _ hb
    _ = 2 ^ (n + k) := by rw [← pow_add, add_comm]

theorem beside_and (ha : a.toNat < 2 ^ n) (hm : m.toNat < 2 ^ n) :
    (a ||| b <<< n) &&& (m ||| l <<< n) = (a &&& m) ||| (b &&& l) <<< n := by
  apply BitVec.eq_of_getLsbD_eq
  intro i hi
  simp only [BitVec.getLsbD_and, BitVec.getLsbD_or, BitVec.getLsbD_shiftLeft]
  by_cases hin : i < n
  · simp [hin]
  · rw [getLsbD_of_toNat_lt ha (Nat.le_of_not_lt hin), getLsbD_of_toNat_lt hm (Nat.le_of_not_lt hin)]
    simp [hi, hin]

theorem beside_inj (hnk : n + k ≤ 32) (ha : a.toNat < 2 ^ n) (hv : v.toNat < 2 ^ n)
    (hb : b.toNat < 2 ^ k) (hw : w.toNat < 2 ^ k) :
    a ||| b <<< n = v ||| w <<< n ↔ a = v ∧ b = w := by
  constructor
  · intro h
    have hN := congrArg BitVec.toNat h
    rw [toNat_beside hnk ha hb, toNat_beside hnk hv hw] at hN
    have hlow := congrArg (· % 2 ^ n) hN
    simp only [add_mul_mod_self_right, mod_eq_of_lt ha, mod_eq_of_lt hv] at hlow
    rw [hlow] at hN
    have hhigh := Nat.eq_of_mul_eq_mul_right (Nat.two_pow_pos n) (Nat.add_left_cancel hN)
    exact ⟨BitVec.eq_of_toNat_eq hlow, BitVec.eq_of_toNat_eq hhigh⟩
  · rintro ⟨rfl, rfl⟩
    rfl

end

theorem toNat_field (pkt : Packet) {o w : Nat} (hw : w ≤ 4) (ho : o + w ≤ pkt.length) :
    (field pkt o w).toNat = leVal ((pkt.drop o).take w) ∧ (field pkt o w).toNat < 2 ^ (8 * w) := by
  have hlt := leVal_lt ((pkt.drop o).take w)
  rw [show ((pkt.drop o).take w).length = w by simp; omega,
    show (256 : Nat) ^ w = 2 ^ (8 * w) by rw [Nat.pow_mul]] at hlt
  have h32 : 2 ^ (8 * w) ≤ 2 ^ 32 := Nat.pow_le_pow_right (by decide) (by omega)
  rw [field, BitVec.toNat_ofNat, Nat.mod_eq_of_lt (hlt.trans_le h32)]
  exact ⟨rfl, hlt⟩

theorem field_append {o w₁ w₂ : Nat} (hw : w₁ + w₂ ≤ 4) (ho : o + (w₁ + w₂) ≤ pkt.length) :
    field pkt o (w₁ + w₂) = field pkt o w₁ ||| field pkt (o + w₁) w₂ <<< (8 * w₁) := by
  obtain ⟨h₁, hlt₁⟩ := toNat_field pkt (o := o) (w := w₁) (by omega) (by omega)
  obtain ⟨h₂, hlt₂⟩ := toNat_field pkt (o := o + w₁) (w := w₂) (by omega) (by omega)
  apply BitVec.eq_of_toNat_eq
  rw [toNat_beside (by omega) hlt₁ hlt₂, (toNat_field pkt hw ho).1, h₁, h₂, take_add,
    leVal_append, drop_drop, show ((pkt.drop o).take w₁).length = w₁ by simp; omega,
    show (256 : Nat) ^ w₁ = 2 ^ (8 * w₁) by rw [Nat.pow_mul], Nat.mul_comm]

/-! ## 3. Coalescing -/

/-- A comparison of whole bytes whose mask and value have no bit above its width. -/
structure Fitted (ir : Ir) : Prop where
  isEq : ir.op = .eq
  pos : 0 < ir.nbits.toNat
  whole : 8 * (ir.nbits.toNat / 8) = ir.nbits.toNat
  mask : ir.mask.toNat < 2 ^ ir.nbits.toNat
  val : ir.val.toNat < 2 ^ ir.nbits.toNat

theorem abut_iff : abut p q = true ↔ p.op = .eq ∧ q.op = .eq ∧
    p.nbits.toNat + p.offset.toNat * 8 = q.offset.toNat * 8 ∧
    p.nbits.toNat + q.nbits.toNat ≤ 32 := by
  simp [abut, and_assoc]

theorem toNat_join_nbits (h : abut p q = true) : (join p q).nbits.toNat = p.nbits.toNat + q.nbits.toNat := by
  have hle := (abut_iff.mp h).2.2.2
  show (p.nbits + q.nbits).toNat = _
  rw [BitVec.toNat_add, mod_eq_of_lt (by omega)]

theorem join_shift (hq : Fitted q) (h : abut p q = true) : p.nbits.toNat % 32 = p.nbits.toNat := by
  have hle := (abut_iff.mp h).2.2.2
  have hpos := hq.pos
  exact mod_eq_of_lt (by omega)

section
variable (hp : Fitted p) (hq : Fitted q) (h : abut p q = true)
include hp hq h

theorem Fitted.join : Fitted (join p q) := by
  have hle := (abut_iff.mp h).2.2.2
  have hn := toNat_join_nbits h
  have hs := join_shift hq h
  have hwp := hp.whole
  have hwq := hq.whole
  have hpos := hp.pos
  refine ⟨hp.isEq, ?_, ?_, ?_, ?_⟩
  · omega
  · omega
  · rw [hn]
    show (p.mask ||| q.mask <<< (p.nbits.toNat % 32)).toNat < _
    rw [hs]
    exact toNat_beside_lt hle hp.mask hq.mask
  · rw [hn]
    show (p.val ||| q.val <<< (p.nbits.toNat % 32)).toNat < _
    rw [hs]
    exact toNat_beside_lt hle hp.val hq.val

/-- **The joint atom asks what the two ask.** -/
theorem passes_join : Passes (Dpf.join p q) base pkt ↔ Passes p base pkt ∧ Passes q base pkt := by
  obtain ⟨-, -, habut, hle⟩ := abut_iff.mp h
  have hwp := hp.whole
  have hwq := hq.whole
  have hoff : base + q.offset.toNat = base + p.offset.toNat + p.nbits.toNat / 8 := by omega
  have hwidth : (Dpf.join p q).nbits.toNat / 8 = p.nbits.toNat / 8 + q.nbits.toNat / 8 := by
    rw [toNat_join_nbits h]
    omega
  unfold Passes
  rw [hwidth, hoff]
  show loadMasked pkt (base + p.offset.toNat) _ (p.mask ||| q.mask <<< (p.nbits.toNat % 32)) =
    some (p.val ||| q.val <<< (p.nbits.toNat % 32)) ↔ _
  rw [join_shift hq h]
  generalize base + p.offset.toNat = o
  unfold loadMasked
  by_cases hin : o + (p.nbits.toNat / 8 + q.nbits.toNat / 8) ≤ pkt.length
  · have hf₁ := (toNat_field pkt (o := o) (w := p.nbits.toNat / 8) (by omega) (by omega)).2
    have hf₂ := (toNat_field pkt (o := o + p.nbits.toNat / 8) (w := q.nbits.toNat / 8)
      (by omega) (by omega)).2
    rw [hwp] at hf₁
    rw [hwq] at hf₂
    rw [if_pos hin, if_pos (by omega), if_pos (by omega), field_append (by omega) hin, hwp,
      beside_and hf₁ hp.mask, Option.some_inj, Option.some_inj, Option.some_inj]
    refine beside_inj hle ?_ hp.val ?_ hq.val
    · exact (BitVec.toNat_and .. ▸ and_le_left).trans_lt hf₁
    · exact (BitVec.toNat_and .. ▸ and_le_left).trans_lt hf₂
  · rw [if_neg hin, if_neg (c := o + p.nbits.toNat / 8 + q.nbits.toNat / 8 ≤ _) (by omega)]
    simp

end

/-- With `p` before the atoms: two that are joined keep to their width. -/
def JoinsFit : Ir → List Ir → Prop
  | _, [] => True
  | p, q :: irs =>
    if abut p q then Fitted p ∧ Fitted q ∧ JoinsFit (join p q) irs else JoinsFit q irs

theorem accepts_coalesceFrom (irs : List Ir) : ∀ p base, JoinsFit p irs →
    accepts (coalesceFrom p irs) base pkt = accepts (p :: irs) base pkt := by
  induction irs with
  | nil =>
    intro p base _
    rfl
  | cons q irs ih =>
    intro p base hfit
    unfold JoinsFit at hfit
    unfold coalesceFrom
    by_cases habut : abut p q = true
    · rw [if_pos habut] at hfit ⊢
      obtain ⟨hp, hq, hfit⟩ := hfit
      rw [ih _ base hfit, accepts_eq (hp.join hq habut).isEq, accepts_eq hp.isEq,
        accepts_eq hq.isEq, ← Bool.and_assoc, ← Bool.decide_and]
      simp only [passes_join hp hq habut]
    · rw [if_neg habut] at hfit ⊢
      simp only [accepts, ih q _ hfit]

/-- **Coalescing keeps the meaning of a filter if the comparisons it joins keep to their
    width.** -/
theorem coalesce_meaning (irs : List Ir) (hfit : ∀ p ∈ irs.head?, JoinsFit p irs.tail)
    (pkt : Packet) : accepts (dpfCoalesce irs) 0 pkt = accepts irs 0 pkt := by
  cases irs with
  | nil => rfl
  | cons p irs => exact accepts_coalesceFrom irs p 0 (hfit p rfl)

/-- The last atom has a mask that is too wide, but is joined with nothing. -/
theorem coalesce_meaning_port :
    accepts (dpfCoalesce [mkeq 16 0 0xffff 0x5000, mkeq 8 2 0x0f 5, mkeq 8 4 0x1ff 7]) 0
        [0x00, 0x50, 0x45, 0, 7] =
      accepts [mkeq 16 0 0xffff 0x5000, mkeq 8 2 0x0f 5, mkeq 8 4 0x1ff 7] 0
        [0x00, 0x50, 0x45, 0, 7] := by
  refine coalesce_meaning _ ?_ _
  rintro p ⟨⟩
  exact ⟨⟨rfl, by decide, by decide, by decide, by decide⟩,
    ⟨rfl, by decide, by decide, by decide, by decide⟩, trivial⟩

/-- A byte is compared with a number that is none, so the first atom accepts no packet; the ninth
    bit of the number becomes one of the second atom. -/
theorem coalesce_leaks :
    accepts [mkeq 8 0 0xff 0x1ff, mkeq 8 1 0xff 1] 0 [0xff, 1] = false ∧
      accepts (dpfCoalesce [mkeq 8 0 0xff 0x1ff, mkeq 8 1 0xff 1]) 0 [0xff, 1] = true := by
  decide

/-! ## 4. The calls -/

/-- What the calls say when they are read one after the other, with the base at `base`. -/
def literal : List IrCall → Nat → Packet → Bool
  | [], _, _ => true
  | .meq w offset mask val :: cs, base, pkt =>
    decide (loadMasked pkt (base + offset.toNat) w.bytes (mask.setWidth 32) =
      some (val.setWidth 32)) && literal cs base pkt
  | .mshift w offset mask shift :: cs, base, pkt =>
    match loadMasked pkt (base + offset.toNat) w.bytes (mask.setWidth 32) with
    | none => false
    | some x =>
      let base := base + (x <<< (shift.toNat % 32)).toNat
      decide (base ≤ pkt.length) && literal cs base pkt
  | .shifti offset :: cs, base, pkt => literal cs (base + offset.toNat) pkt

/-- With constant shifts by `pending` made since the last computed one: the offsets of the
    comparisons are 16-bit numbers, and **a computed shift comes only when `pending` is 0**. -/
def InRange : Nat → List IrCall → Prop
  | _, [] => True
  | pending, .meq _ offset _ _ :: cs => pending + offset.toNat < 2 ^ 16 ∧ InRange pending cs
  | pending, .mshift .. :: cs => pending = 0 ∧ InRange 0 cs
  | pending, .shifti offset :: cs => InRange (pending + offset.toNat) cs

variable {s s' : DpfIr} {cs : List IrCall}

theorem DpfIr.append_eq {a : Ir} (h : s.append a = some s') : s' = { s with ir := s.ir ++ [a] } := by
  unfold DpfIr.append at h
  split at h
  · cases h
  · exact (some.inj h).symm

theorem Width.nbits_div (w : Width) : (BitVec.ofNat 8 w.bits).toNat / 8 = w.bytes := by
  cases w <;> rfl

/-- **The atoms that the calls append mean what the calls say.** -/
theorem accepts_build (pkt : Packet) (cs : List IrCall) : ∀ {s : DpfIr} {pending : Nat},
    build s cs = some s' → s.moffset = BitVec.ofNat 32 pending → InRange pending cs →
    ∃ l, s'.ir = s.ir ++ l ∧ ∀ base, accepts l base pkt = literal cs (base + pending) pkt := by
  induction cs with
  | nil =>
    intro s pending h _ _
    cases h
    exact ⟨[], (append_nil _).symm, fun _ => rfl⟩
  | cons c cs ih =>
    intro s pending h hm hr
    obtain ⟨t, hc, hcs⟩ := bind_eq_some_iff.mp h
    cases c with
    | meq w offset mask val =>
      obtain rfl := DpfIr.append_eq hc
      obtain ⟨l, hl, hacc⟩ := ih hcs hm hr.2
      have hoff : (offset + s.moffset.setWidth 16).toNat = pending + offset.toNat := by
        have := hr.1
        rw [hm]
        simp only [BitVec.toNat_add, BitVec.toNat_setWidth, BitVec.toNat_ofNat]
        omega
      refine ⟨_ :: l, by rw [hl, append_assoc]; rfl, fun base => ?_⟩
      have hpass : Passes (mkeq (BitVec.ofNat 8 w.bits) (offset + s.moffset.setWidth 16)
          (mask.setWidth 32) (val.setWidth 32)) base pkt ↔
          loadMasked pkt (base + pending + offset.toNat) w.bytes (mask.setWidth 32) =
            some (val.setWidth 32) := by
        simp only [Passes, mkeq, hoff, Width.nbits_div, add_assoc]
      rw [accepts_eq rfl, hacc base]
      simp only [hpass, literal]
    | mshift w offset mask shift =>
      obtain rfl := DpfIr.append_eq hc
      obtain ⟨rfl, hr⟩ := hr
      obtain ⟨l, hl, hacc⟩ := ih hcs rfl hr
      refine ⟨_ :: l, by rw [hl, append_assoc]; rfl, fun base => ?_⟩
      simp only [accepts, mkshift, Width.nbits_div, literal, add_zero, hacc]
      cases loadMasked pkt (base + offset.toNat) w.bytes (mask.setWidth 32) with
      | none => rfl
      | some x => rfl
    | shifti offset =>
      cases hc
      have hm' : s.moffset + offset.setWidth 32 = BitVec.ofNat 32 (pending + offset.toNat) := by
        rw [hm]
        apply BitVec.eq_of_toNat_eq
        simp only [BitVec.toNat_add, BitVec.toNat_setWidth, BitVec.toNat_ofNat]
        omega
      obtain ⟨l, hl, hacc⟩ := ih hcs hm' hr
      refine ⟨l, hl, fun base => ?_⟩
      rw [hacc base, ← add_assoc]
      rfl

theorem build_isSome (cs : List IrCall) : ∀ {s : DpfIr}, s.ir.length + cs.length ≤ maxelem →
    ∃ s', build s cs = some s' := by
  induction cs with
  | nil =>
    intro s _
    exact ⟨s, rfl⟩
  | cons c cs ih =>
    intro s hlen
    rw [length_cons] at hlen
    have hroom : ¬ maxelem ≤ s.ir.length := by omega
    have happ : ∀ (t : DpfIr) (a : Ir), t.ir = s.ir →
        ∃ s', (t.append a).bind (fun s => build s cs) = some s' := by
      intro t a ht
      rw [DpfIr.append, ht, if_neg hroom]
      apply ih
      simp only [length_append, length_singleton]
      omega
    cases c with
    | meq w offset mask val => exact happ s _ rfl
    | mshift w offset mask shift => exact happ { s with moffset := 0 } _ rfl
    | shifti offset => exact ih (s := dpfShifti s offset) (le_of_succ_le hlen)

/-! ## 5. The translator -/

/-- A comparison in the older format. -/
structure Group where
  val : BitVec 32
  mask : Option (BitVec 32)
  w : Width
  offset : BitVec 32

def Width.load : Width → OldOp
  | .w8 => .bits8i
  | .w16 => .bits16i
  | .w32 => .bits32i

def Group.insts (g : Group) : List FrozenIr :=
  ⟨.eqi, g.val⟩ :: (match g.mask with | none => [] | some m => [⟨.andi, m⟩]) ++ [⟨g.w.load, g.offset⟩]

/-- The call for it. -/
def Group.call (g : Group) : IrCall :=
  .meq g.w (g.offset.setWidth 16) ((g.mask.getD 0xffffffff).setWidth _) (g.val.setWidth _)

def program (gs : List Group) : List FrozenIr := gs.flatMap Group.insts

theorem length_le_program (gs : List Group) : gs.length ≤ (program gs).length := by
  induction gs with
  | nil => exact zero_le _
  | cons g gs ih =>
    have hlen : (program (g :: gs)).length = g.insts.length + (program gs).length :=
      length_append
    have hpos : 0 < g.insts.length := by simp [Group.insts]
    rw [hlen, length_cons]
    omega

theorem xlateLoad_eq (s : DpfIr) (w : Width) (offset mask val : BitVec 32) :
    xlateLoad s ⟨w.load, offset⟩ mask val =
      (IrCall.meq w (offset.setWidth 16) (mask.setWidth _) (val.setWidth _)).exec s := by
  cases w with
  | w8 => rfl
  | w16 => rfl
  | w32 =>
    simp only [xlateLoad, Width.load, IrCall.exec, dpfMeq32]
    rw [show mask.setWidth Width.w32.bits = mask from BitVec.setWidth_eq mask,
      show val.setWidth Width.w32.bits = val from BitVec.setWidth_eq val]

/-- Memory from `i` on holds the program. -/
def Holds (ir : Nat → FrozenIr) (i : Nat) (prog : List FrozenIr) : Prop :=
  ∀ k x, prog[k]? = some x → ir (i + k) = x

theorem Holds.append {ir : Nat → FrozenIr} {i : Nat} {l l' : List FrozenIr}
    (h : Holds ir i (l ++ l')) : Holds ir (i + l.length) l' := by
  intro k x hk
  rw [add_assoc]
  apply h
  rw [List.getElem?_append_right (Nat.le_add_right ..), Nat.add_sub_cancel_left]
  exact hk

section
variable {ir : Nat → FrozenIr} {nelems : Nat}

/-- A round of the loop at the beginning of a group. -/
theorem xlateLoop_group {g : Group} {rest : List FrozenIr} {i : Nat} (fuel : Nat)
    (h : Holds ir i (g.insts ++ rest)) (hi : i < nelems) :
    xlateLoop ir nelems (fuel + 1) i s =
      match g.call.exec s with
      | none => (List.range' i g.insts.length, none)
      | some s =>
        let r := xlateLoop ir nelems fuel (i + g.insts.length) s
        (List.range' i g.insts.length ++ r.1, r.2) := by
  obtain ⟨val, mask, w, offset⟩ := g
  have h0 : ir i = ⟨.eqi, val⟩ := h 0 _ rfl
  cases mask with
  | none =>
    have h1 : ir (i + 1) = ⟨w.load, offset⟩ := h 1 _ rfl
    have hload : w.load ≠ .andi := by cases w <;> decide
    simp only [xlateLoop, h0, h1, hload, xlateLoad_eq, not_le.mpr hi, if_false, ne_eq,
      not_true_eq_false]
    rfl
  | some m =>
    have h1 : ir (i + 1) = ⟨.andi, m⟩ := h 1 _ rfl
    have h2 : ir (i + 2) = ⟨w.load, offset⟩ := h 2 _ rfl
    simp only [xlateLoop, h0, h1, h2, xlateLoad_eq, not_le.mpr hi, if_false, ne_eq,
      not_true_eq_false, if_true]
    rfl

/-- **A program of whole groups is read once and makes the calls of its groups.** -/
theorem xlateLoop_program (gs : List Group) : ∀ {fuel i : Nat} {s : DpfIr},
    Holds ir i (program gs) → nelems = i + (program gs).length → gs.length ≤ fuel →
    (∀ k ∈ (xlateLoop ir nelems fuel i s).1, k < nelems) ∧
      (xlateLoop ir nelems fuel i s).2 = build s (gs.map Group.call) := by
  induction gs with
  | nil =>
    intro fuel i s _ hn _
    cases fuel with
    | zero => simp [xlateLoop, build]
    | succ fuel => simp [xlateLoop, build, hn, program]
  | cons g gs ih =>
    intro fuel i s hir hn hfuel
    cases fuel with
    | zero => cases hfuel
    | succ fuel =>
      have hlen : (program (g :: gs)).length = g.insts.length + (program gs).length :=
        length_append
      have hpos : 0 < g.insts.length := by simp [Group.insts]
      have hreads : ∀ k ∈ List.range' i g.insts.length, k < nelems := by
        intro k hk
        have := (mem_range'_1.mp hk).2
        omega
      rw [xlateLoop_group fuel hir (by omega), map_cons, build]
      cases g.call.exec s with
      | none => exact ⟨hreads, rfl⟩
      | some t =>
        obtain ⟨hmore, hres⟩ := ih (s := t) hir.append (by omega) (le_of_succ_le_succ hfuel)
        refine ⟨fun k hk => ?_, hres⟩
        rcases mem_append.mp hk with hk | hk
        · exact hreads k hk
        · exact hmore k hk

end

/-- **What is written is what was meant**: by the calls, if they are in range, and by a program of
    the older format, if it consists of whole groups and there is room for them. -/
theorem written_filter_meaning (cs : List IrCall) (s : DpfIr) (hs : build dpfBegin cs = some s)
    (hcs : InRange 0 cs) (pkt : Packet) (gs : List Group) (hgs : gs.length ≤ maxelem)
    (ir : Nat → FrozenIr) (hir : Holds ir 0 (program gs)) :
    accepts s.ir 0 pkt = literal cs 0 pkt ∧
      (∀ k ∈ (dpfXlate ir (program gs).length).1, k < (program gs).length) ∧
      ∃ x, (dpfXlate ir (program gs).length).2 = some x ∧
        build dpfBegin (gs.map Group.call) = some x := by
  constructor
  · obtain ⟨l, hl, hacc⟩ := accepts_build pkt cs hs rfl hcs
    rw [hl]
    exact hacc 0
  obtain ⟨hreads, hres⟩ :=
    xlateLoop_program gs hir (zero_add _).symm (length_le_program gs) (s := dpfBegin)
  obtain ⟨x, hx⟩ := build_isSome (gs.map Group.call) (s := dpfBegin) (by simpa [dpfBegin] using hgs)
  exact ⟨hreads, x, hres.trans hx, hx⟩

theorem written_filter_meaning_ip :
    accepts [mkeq 16 12 0xffff 8, mkshift 8 14 0x0f 2, mkeq 8 0 0xff 7] 0 [1, 2] =
        literal [.meq .w16 12 0xffff 8, .mshift .w8 14 0x0f 2, .meq .w8 0 0xff 7] 0 [1, 2] ∧
      (∀ k ∈ (dpfXlate (fun k => if k = 0 then ⟨.eqi, 8⟩ else ⟨.bits16i, 12⟩) 2).1, k < 2) ∧
      ∃ x, (dpfXlate (fun k => if k = 0 then ⟨.eqi, 8⟩ else ⟨.bits16i, 12⟩) 2).2 = some x ∧
        build dpfBegin [.meq .w16 12 0xffff 8] = some x := by
  refine written_filter_meaning [.meq .w16 12 0xffff 8, .mshift .w8 14 0x0f 2, .meq .w8 0 0xff 7]
    _ rfl ?_ _ [⟨8, none, .w16, 12⟩] (by decide) _ ?_
  · simp [InRange]
  intro k x hk
  match k, hk with
  | 0, hk => exact some.inj hk
  | 1, hk => exact some.inj hk

/-- A shift by 1 and then by the byte found there: the first is dropped, so the byte is looked for
    one place too early. A program that ends behind an `DPF_EQI` is read past its end. -/
theorem shift_forgets_shifti :
    (∃ s, build dpfBegin [.shifti 1, .mshift .w8 0 0xff 0, .meq .w8 0 0xff 7] = some s ∧
      accepts s.ir 0 [0, 2, 9, 7] = false) ∧
    literal [.shifti 1, .mshift .w8 0 0xff 0, .meq .w8 0 0xff 7] 0 [0, 2, 9, 7] = true ∧
    1 ∈ (dpfXlate (fun _ => ⟨.eqi, 0⟩) 1).1 :=
  ⟨⟨_, rfl, by decide⟩, by decide, by decide⟩

end Exokernel.Dpf
