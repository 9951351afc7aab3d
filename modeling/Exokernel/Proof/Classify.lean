import Exokernel.Dpf.Interp
import Exokernel.Lib.Run

/-!
# Classification looks at the packet

Two memories that agree on the `n` bytes of a message should be classified alike.

**They are, if no load that is made begins in the message and ends behind it.** The test
before a load is on its first byte, so a comparison of two or four bytes near the end of a
short packet reads what happens to follow it in memory. What has to fit are only the bytes
that can matter: those the atom's mask selects.

Which loads are made depends on the packet: atoms below a comparison that fails are not
visited, and a shift moves what is below it. The condition is asked of the walk itself: a
literal reading, which stops at the first load that leaves the message, does not stop.
-/
set_option autoImplicit false

namespace Exokernel.Dpf

open BitVec

/-! ## 1. Which bytes matter -/

/-- Byte `j` of a mask. -/
def maskByte (mask : BitVec 32) (j : Nat) : BitVec 8 := mask.extractLsb' (8 * j) 8

/-- How many bytes the code at a label loads, and whether it masks them. -/
def Label.width : Label → Nat
  | .x8 | .mx8 => 1
  | .x16 | .mx16 => 2
  | _ => 4

def Label.masked : Label → Bool
  | .x8 | .x16 | .x32 => false
  | _ => true

/-- Byte `j` from the atom's offset on can make a difference at label `l`. -/
def Ir.reads (ir : Ir) (l : Label) (j : Nat) : Prop :=
  j < l.width ∧ (l.masked = true → maskByte ir.mask j ≠ 0)

instance {ir : Ir} {l : Label} {j : Nat} : Decidable (ir.reads l j) :=
  inferInstanceAs (Decidable (_ ∧ _))

/-- The load at label `l` begins in the `n` bytes that are left and has a byte that matters
    behind them. -/
def Ir.leaves (ir : Ir) (l : Label) (n : Nat) : Prop :=
  ir.offset.toNat < n ∧ ∃ j < 4, ir.reads l j ∧ n ≤ ir.offset.toNat + j

instance {ir : Ir} {l : Label} {n : Nat} : Decidable (ir.leaves l n) :=
  inferInstanceAs (Decidable (_ ∧ _))

/-- The code at an atom's label, read literally: a load that leaves the message stops it. -/
def literalAct (h : Heap) (mem : Memory) (base n : Nat) (x : Atom) (failPid : Nat) :
    Except Trap Act :=
  if ∃ l ∈ x.code, x.ir.leaves l n then .error .beyond else act h mem base n x failPid

/-- No load that is made leaves the message. -/
def Contained (h : Heap) (mem : Memory) (fuel n : Nat) : Prop :=
  interpBy h (literalAct h mem) fuel n ≠ .error .beyond

/-! ## 2. Loads -/

section Loads

variable {mem mem' : Memory} {mask : BitVec 32} {a i w : Nat}

/-- A bit of a word is a bit of one of its bytes. -/
theorem getLsbD_ld16 (hi : i < 16) :
    (mem.ld16 () a).getLsbD i = (mem () (a + i / 8)).getLsbD (i % 8) := by
  simp only [Store.ld16, getLsbD_append]
  by_cases h0 : i < 8
  · rw [if_pos h0, show i / 8 = 0 by omega, show i % 8 = i by omega, Nat.add_zero]
  · rw [if_neg h0, show i / 8 = 1 by omega, show i % 8 = i - 8 by omega]

theorem getLsbD_ld32 (hi : i < 32) :
    (mem.ld32 () a).getLsbD i = (mem () (a + i / 8)).getLsbD (i % 8) := by
  simp only [Store.ld32, getLsbD_append]
  by_cases h0 : i < 8
  · rw [if_pos h0, show i / 8 = 0 by omega, show i % 8 = i by omega, Nat.add_zero]
  rw [if_neg h0]
  by_cases h1 : i - 8 < 8
  · rw [if_pos h1, show i / 8 = 1 by omega, show i % 8 = i - 8 by omega]
  rw [if_neg h1]
  by_cases h2 : i - 8 - 8 < 8
  · rw [if_pos h2, show i / 8 = 2 by omega, show i % 8 = i - 8 - 8 by omega]
  · rw [if_neg h2, show i / 8 = 3 by omega, show i % 8 = i - 8 - 8 - 8 by omega]

/-- A bit of a mask is in a byte of it that is not zero. -/
theorem maskByte_ne_zero (h : mask.getLsbD i = true) : maskByte mask (i / 8) ≠ 0 := by
  intro h0
  have hbit := congrArg (fun b => b.getLsbD (i % 8)) h0
  simp only [maskByte, getLsbD_extractLsb', show 8 * (i / 8) + i % 8 = i by omega, h] at hbit
  simp [Nat.mod_lt] at hbit

/-- The bytes of a load of `w` bytes; those above are zero. -/
def bytes (mem : Memory) (a w j : Nat) : BitVec 8 := if j < w then mem () (a + j) else 0

theorem getLsbD_ldBytes (hw : w = 1 ∨ w = 2 ∨ w = 4) (hi : i < 32) :
    (ldBytes mem a w).getLsbD i = (bytes mem a w (i / 8)).getLsbD (i % 8) := by
  rcases hw with rfl | rfl | rfl
  · simp only [ldBytes, getLsbD_setWidth, hi, decide_true, Bool.true_and, bytes]
    by_cases h0 : i < 8
    · rw [if_pos (by omega), show i / 8 = 0 by omega, show i % 8 = i by omega, Nat.add_zero]
    · rw [if_neg (by omega), getLsbD_of_ge _ _ (by omega)]
      simp
  · simp only [ldBytes, getLsbD_setWidth, hi, decide_true, Bool.true_and, bytes]
    by_cases h0 : i < 16
    · rw [if_pos (by omega), getLsbD_ld16 h0]
    · rw [if_neg (by omega), getLsbD_of_ge _ _ (by omega)]
      simp
  · simp only [ldBytes, bytes]
    rw [if_pos (by omega), getLsbD_ld32 hi]

/-- Masked loads agree if the loaded bytes agree that the mask selects. -/
theorem ldBytes_and_congr (hw : w = 1 ∨ w = 2 ∨ w = 4)
    (h : ∀ j, j < w → maskByte mask j ≠ 0 → mem' () (a + j) = mem () (a + j)) :
    ldBytes mem' a w &&& mask = ldBytes mem a w &&& mask := by
  apply eq_of_getLsbD_eq
  intro i hi
  simp only [getLsbD_and]
  cases hm : mask.getLsbD i with
  | false => simp
  | true =>
    rw [getLsbD_ldBytes hw hi, getLsbD_ldBytes hw hi]
    unfold bytes
    split
    · rw [h (i / 8) ‹_› (maskByte_ne_zero hm)]
    · rfl

theorem ldBytes_congr (hw : w = 1 ∨ w = 2 ∨ w = 4)
    (h : ∀ j, j < w → mem' () (a + j) = mem () (a + j)) : ldBytes mem' a w = ldBytes mem a w := by
  have hand : ldBytes mem' a w &&& BitVec.allOnes 32 = ldBytes mem a w &&& BitVec.allOnes 32 :=
    ldBytes_and_congr hw fun j hj _ => h j hj
  rwa [and_allOnes, and_allOnes] at hand

end Loads

/-! ## 3. One label -/

section Labels

variable {h : Heap} {mem mem' : Memory} {b n : Nat} {x : Atom} {l : Label}

/-- The memories agree on the bytes of an atom's load that matter at a label. -/
def AgreeOn (mem mem' : Memory) (b n : Nat) (ir : Ir) (l : Label) : Prop :=
  ir.offset.toNat < n → ∀ j, ir.reads l j →
    mem' () (b + ir.offset.toNat + j) = mem () (b + ir.offset.toNat + j)

theorem loadLhs_congr {ir : Ir} (h : AgreeOn mem mem' b n ir l) (hw : l.width = 4) :
    loadLhs mem' b n ir = loadLhs mem b n ir := by
  unfold loadLhs
  split
  · rename_i hlt
    have hld : ldBytes mem' (b + ir.offset.toNat) 4 &&& ir.mask
        = ldBytes mem (b + ir.offset.toNat) 4 &&& ir.mask :=
      ldBytes_and_congr (by simp) fun j hj hm => h hlt j ⟨hw ▸ hj, fun _ => hm⟩
    exact congrArg some hld
  · rfl

theorem fastEq_congr {ir : Ir} (h : AgreeOn mem mem' b n ir l)
    (hw : l.width = 1 ∨ l.width = 2 ∨ l.width = 4) :
    fastEq mem' b n ir l.width l.masked = fastEq mem b n ir l.width l.masked := by
  unfold fastEq
  by_cases hlt : ir.offset.toNat < n
  · cases hm : l.masked with
    | true =>
      have hld := ldBytes_and_congr hw fun j hj hmask => h hlt j ⟨hj, fun _ => hmask⟩
      simp only [if_true, hld]
    | false =>
      have hld := ldBytes_congr hw fun j hj => h hlt j ⟨hj, fun hm' => absurd hm' (by simp [hm])⟩
      simp only [Bool.false_eq_true, if_false, hld]
  · simp [hlt]

/-- The code at a label does the same over memories that agree on its load. -/
theorem act_congr {failPid : Nat} (hl : x.code = some l) (hag : AgreeOn mem mem' b n x.ir l) :
    act h mem' b n x failPid = act h mem b n x failPid := by
  have hlhs := loadLhs_congr hag
  have hfast := fastEq_congr hag
  unfold act lookupLhs
  rw [hl]
  cases l with
  | eq nosib nopid => simp only [hlhs rfl]
  | eqNoKid => simp only [hlhs rfl]
  | deq nosib nopid => simp only [hlhs rfl]
  | deqNoKid => simp only [hlhs rfl]
  | shift => simp only [hlhs rfl]
  | seq nosib nopid => rfl
  | seqNoKid => rfl
  | action => rfl
  | x8 =>
    have he : fastEq mem' b n x.ir 1 false = fastEq mem b n x.ir 1 false := hfast (.inl rfl)
    simp only [he]
  | x16 =>
    have he : fastEq mem' b n x.ir 2 false = fastEq mem b n x.ir 2 false := hfast (.inr (.inl rfl))
    simp only [he]
  | x32 =>
    have he : fastEq mem' b n x.ir 4 false = fastEq mem b n x.ir 4 false := hfast (.inr (.inr rfl))
    simp only [he]
  | mx8 =>
    have he : fastEq mem' b n x.ir 1 true = fastEq mem b n x.ir 1 true := hfast (.inl rfl)
    simp only [he]
  | mx16 =>
    have he : fastEq mem' b n x.ir 2 true = fastEq mem b n x.ir 2 true := hfast (.inr (.inl rfl))
    simp only [he]
  | mx32 =>
    have he : fastEq mem' b n x.ir 4 true = fastEq mem b n x.ir 4 true := hfast (.inr (.inr rfl))
    simp only [he]

theorem Label.width_le (l : Label) : l.width ≤ 4 := by
  cases l <;> simp [Label.width]

/-- Read literally the code at a label stops, or does what it does over any memory with the
    same rest of the message. -/
theorem literalAct_congr (failPid : Nat)
    (hsame : ∀ i, b ≤ i → i < b + n → mem' () i = mem () i) :
    literalAct h mem b n x failPid = .error .beyond
      ∨ act h mem' b n x failPid = literalAct h mem b n x failPid := by
  unfold literalAct
  split
  · exact .inl rfl
  rename_i hin
  right
  cases hc : x.code with
  | none => simp [act, hc]
  | some l =>
    refine act_congr hc fun hlt j hj => hsame _ (by omega) ?_
    by_contra hge
    exact hin ⟨l, hc, hlt, j, by have := l.width_le; have := hj.1; omega, hj, by omega⟩

end Labels

/-! ## 4. The whole walk -/

section Walk

variable {h : Heap} {mem mem' : Memory} {n : Nat}

/-- A literal walk stops, or the interpreter does the same over any memory with the same
    rest of the message. The induction is on the fuel; the inner call of a shift has less of
    the message left. -/
theorem fastInterp_literal (fuel : Nat) :
    ∀ (b n : Nat) (r : Ref) (failPid sp : Nat) (st : Stack),
      (∀ i, b ≤ i → i < b + n → mem' () i = mem () i) →
      fastInterp h (literalAct h mem) fuel b n r failPid sp st = .error .beyond
        ∨ fastInterp h (act h mem') fuel b n r failPid sp st
          = fastInterp h (literalAct h mem) fuel b n r failPid sp st := by
  induction fuel with
  | zero => intros; exact .inr rfl
  | succ fuel ih =>
    intro b n r failPid sp st hsame
    cases r with
    | done => exact .inr rfl
    | atom a =>
      simp only [fastInterp]
      cases hx : h.atom a with
      | none => exact .inr rfl
      | some x =>
        simp only
        rcases literalAct_congr (h := h) (x := x) failPid hsame with hact | hact
        · exact .inl (by rw [hact])
        rw [hact]
        cases literalAct h mem b n x failPid with
        | error t => exact .inr rfl
        | ok o =>
          cases o with
          | ret pid => exact .inr rfl
          | goto a' push failPid' =>
            simp only
            cases pushOr sp st push with
            | none => exact .inr rfl
            | some spst =>
              simp only
              cases nextRef a' failPid' spst.1 spst.2 with
              | inl pid => exact .inr rfl
              | inr rsp => exact ih b n rsp.1 failPid' rsp.2 spst.2 hsame
          | call off kids pid sib =>
            cases kids with
            | none =>
              simp only
              split
              · exact .inr rfl
              cases nextRef sib failPid sp st with
              | inl pid => exact .inr rfl
              | inr rsp => exact ih b n rsp.1 failPid rsp.2 st hsame
            | some k =>
              simp only
              rcases ih (b + off) (n - off) (.atom k) pid sp st
                (fun i hi hlt => hsame i (by omega) (by omega)) with hin | hin
              · exact .inl (by rw [hin])
              rw [hin]
              cases fastInterp h (literalAct h mem) fuel (b + off) (n - off) (.atom k) pid sp st with
              | error t => exact .inr rfl
              | ok rst =>
                simp only
                split
                · exact .inr rfl
                cases nextRef sib failPid sp rst.2 with
                | inl pid => exact .inr rfl
                | inr rsp => exact ih b n rsp.1 failPid rsp.2 rst.2 hsame

theorem dpfInterp_literal {fuel : Nat} (hsame : mem.Same mem' () 0 n)
    (hin : Contained h mem fuel n) :
    dpfInterp fuel h mem' n = interpBy h (literalAct h mem) fuel n := by
  unfold Contained at hin
  unfold dpfInterp
  unfold interpBy at hin ⊢
  cases hbase : h.atom dpfBase with
  | none => rfl
  | some base =>
    rw [hbase] at hin
    dsimp only at hin ⊢
    cases hk : base.kids with
    | none => rfl
    | some a =>
      rw [hk] at hin
      rcases fastInterp_literal (h := h) fuel 0 n (.atom a) 0 1 (fun _ => .done)
        (fun i hi hlt => hsame i hi (by omega)) with hb | heq
      · exact absurd (congrArg (Except.map (·.1)) hb) hin
      · simp only [heq]

/-- **Classification looks only at the packet.** Whatever the trie, if no load that is made
    leaves the message, then two memories that agree on the message's `n` bytes are
    classified alike, after any number of steps. -/
theorem classify_packet (hsame : mem.Same mem' () 0 n) (fuel : Nat)
    (hin : Contained h mem fuel n) : dpfInterp fuel h mem' n = dpfInterp fuel h mem n := by
  have hself : mem.Same mem () 0 n := fun _ _ _ => rfl
  rw [dpfInterp_literal hsame hin, dpfInterp_literal hself hin]

end Walk

/-! ## 5. Tries that are there -/

/-- What changes the trie. -/
inductive TrieCall where
  | insert (irs : List Ir)
  | delete (pid : Nat)

def TrieState.step (d : TrieState) : TrieCall → TrieState → Prop
  | .insert irs, d' => ∃ r, dpfInsert d irs = .ok (r, d')
  | .delete pid, d' => ∃ r, dpfDelete d pid = .ok (r, d')

/-- The trie after an insertion that returns. -/
def TrieState.afterInsert (d : TrieState) (irs : List Ir) : TrieState :=
  match dpfInsert d irs with
  | .ok (_, d') => d'
  | .error _ => d

theorem TrieState.step_afterInsert {d : TrieState} {irs : List Ir}
    (h : (dpfInsert d irs).isOk = true) : d.step (.insert irs) (d.afterInsert irs) := by
  cases hr : dpfInsert d irs with
  | error t => simp [hr, Except.isOk, Except.toBool] at h
  | ok rd => exact ⟨rd.1, by simp [TrieState.afterInsert, hr]⟩

/-- One filter: the two bytes at offset 12, an Ethernet type, are `08 00`. -/
def ipFilter : TrieState := TrieState.init.afterInsert [mkeq 16 12 0xffff 8]

/-- A memory with `08 00` at offset 12, except that byte `i` is `x`. -/
def frameWith (i : Nat) (x : BitVec 8) : Memory := fun _ j =>
  if j = i then x else if j = 12 then 8 else 0

/-- The first byte is 1 and the Ethernet type is `08 00`. -/
def oneIpFilter : TrieState := TrieState.init.afterInsert [mkeq 8 0 0xff 1, mkeq 16 12 0xffff 8]

/-- What follows a packet of 14 bytes makes no difference to the filter, nor what follows
    one of 13 bytes whose first byte is wrong. -/
theorem classify_full_header :
    dpfInterp 10 ipFilter.heap (frameWith 14 1) 14 = dpfInterp 10 ipFilter.heap (frameWith 14 0) 14
      ∧ dpfInterp 10 oneIpFilter.heap (frameWith 13 1) 13
        = dpfInterp 10 oneIpFilter.heap (frameWith 13 0) 13 := by
  have hsame : ∀ n, Store.Same (frameWith n 0) (frameWith n 1) () 0 n := fun n i _ hi => by
    have hne : i ≠ n := by omega
    simp [frameWith, hne]
  exact ⟨classify_packet (hsame 14) 10 (by unfold Contained; decide +kernel),
    classify_packet (hsame 13) 10 (by unfold Contained; decide +kernel)⟩

/-- A packet that ends in the middle of the compared field: what the filter says depends
    on the byte of memory that follows it. -/
theorem classify_beyond_packet :
    Run.Reaches TrieState.step (fun _ _ => True) TrieState.init ipFilter
      ∧ Store.Same (frameWith 13 0) (frameWith 13 1) () 0 13
      ∧ dpfInterp 10 ipFilter.heap (frameWith 13 0) 13 = .ok 1
      ∧ dpfInterp 10 ipFilter.heap (frameWith 13 1) 13 = .ok 0 := by
  refine ⟨Run.Reaches.refl.call trivial (TrieState.step_afterInsert (by decide +kernel)),
    fun i _ hi => ?_, by decide +kernel, by decide +kernel⟩
  have hne : i ≠ 13 := by omega
  simp [frameWith, hne]

end Exokernel.Dpf
