import Exokernel.Kern.Wk
import Exokernel.Proof.Pins

/-!
# Wake-up predicates — what they can see

The scheduler runs a predicate in the kernel, on all of physical memory, and its result is
visible: it wakes its environment, and with the tag of the product that was true. So what the
code loads is what the environment can learn.

**What is loaded is what was checked, up to the last three bytes of a page.** A word that
starts there ends in the next page, which nobody has looked at. The first comparison of a
predicate without operands sees what the scheduler has left in the registers. And the end of
the code may lie behind its buffer.
-/
set_option autoImplicit false

namespace Exokernel

open Function Option List

/-! ## 1. Runs -/

section Runs

variable {mem mem' : Store Unit} {skip : Option Nat} {code : List VInst} {r r' : WkRegs}

/-- Words are loaded from the addresses that stand in the code. -/
theorem runCode_loads {a : BitVec 32} (h : a ∈ (runCode mem skip code r).2) :
    ∃ x, VInst.ldui x a ∈ code := by
  induction code generalizing skip r with
  | nil => simp [runCode] at h
  | cons i is ih =>
    have later : ∀ {skip : Option Nat} {r : WkRegs}, a ∈ (runCode mem skip is r).2 →
        ∃ x, VInst.ldui x a ∈ i :: is := fun h => by
      obtain ⟨x, hx⟩ := ih h
      exact ⟨x, mem_cons_of_mem _ hx⟩
    cases skip with
    | some l =>
      unfold runCode at h
      split at h
      · exact later h
      · exact later h
    | none =>
      cases i with
      | ldui x b =>
        rcases mem_cons.mp h with rfl | h
        · exact ⟨x, by simp⟩
        · exact later h
      | branch o l =>
        unfold runCode at h
        split at h
        · exact later h
        · exact later h
      | setu x w => exact later (r := r.set x w) h
      | setTag w => exact later (r := { r with tag := w }) h
      | label l => exact later (r := r) h
      | retTag | retZero => simp [runCode] at h

/-- Two memories that have the same words there are not told apart. -/
theorem runCode_congr (h : ∀ x a, VInst.ldui x a ∈ code → mem.ld32 () a.toNat = mem'.ld32 () a.toNat) :
    runCode mem skip code r = runCode mem' skip code r := by
  induction code generalizing skip r with
  | nil => cases skip <;> rfl
  | cons i is ih =>
    have later : ∀ (skip : Option Nat) (r : WkRegs), runCode mem skip is r = runCode mem' skip is r :=
      fun _ _ => ih fun x a hx => h x a (mem_cons_of_mem _ hx)
    cases skip with
    | some l => simp only [runCode, later]
    | none =>
      cases i with
      | ldui x a => simp only [runCode, h x a (by simp), later]
      | branch o l => simp only [runCode, later]
      | setu x w => exact later none (r.set x w)
      | setTag w => exact later none { r with tag := w }
      | label l => exact later none r
      | retTag | retZero => rfl

/-- Every comparison comes after both operands; `b1` and `b2` say which of them are there. -/
def primed : Bool → Bool → List VInst → Bool
  | _, _, [] => true
  | b1, b2, .ldui x _ :: is | b1, b2, .setu x _ :: is =>
    primed (b1 || x = .r1) (b2 || x = .r2) is
  | b1, b2, .branch _ _ :: is => b1 && b2 && primed b1 b2 is
  | b1, b2, _ :: is => primed b1 b2 is

/-- The registers are the same, as far as they have been assigned. -/
structure RegsSame (b1 b2 : Bool) (r r' : WkRegs) : Prop where
  r1 : b1 = true → r.r1 = r'.r1
  r2 : b2 = true → r.r2 = r'.r2
  tag : r.tag = r'.tag

theorem RegsSame.set {b1 b2 : Bool} (h : RegsSame b1 b2 r r') (x : WkReg) (v : BitVec 32) :
    RegsSame (b1 || x = .r1) (b2 || x = .r2) (r.set x v) (r'.set x v) := by
  obtain ⟨h1, h2, ht⟩ := h
  cases x with
  | r1 => exact ⟨fun _ => rfl, fun hb => h2 (by simpa using hb), ht⟩
  | r2 => exact ⟨fun hb => h1 (by simpa using hb), fun _ => rfl, ht⟩

/-- Code of which every comparison has its operands does not depend on the registers. The
    induction is over the code; while it is skipped both operands are there. -/
theorem runCode_regs {b1 b2 : Bool} (hp : primed b1 b2 code = true) (h : RegsSame b1 b2 r r')
    (hskip : skip.isSome = true → b1 = true ∧ b2 = true) :
    runCode mem skip code r = runCode mem skip code r' := by
  induction code generalizing skip b1 b2 r r' with
  | nil => cases skip <;> rfl
  | cons i is ih =>
    cases skip with
    | some l =>
      obtain ⟨rfl, rfl⟩ := hskip rfl
      have hp' : primed true true is = true := by
        cases i <;> simp_all [primed]
      simp only [runCode]
      split
      · exact ih hp' h (by simp)
      · exact ih hp' h (by simp)
    | none =>
      have hnone : ∀ {b1 b2 : Bool}, (none : Option Nat).isSome = true → b1 = true ∧ b2 = true :=
        nofun
      cases i with
      | ldui x a =>
        have hrest := ih hp (h.set x (mem.ld32 () a.toNat)) hnone
        simp only [runCode, hrest]
      | setu x w => exact ih hp (h.set x w) hnone
      | setTag w => exact ih hp ⟨h.r1, h.r2, rfl⟩ hnone
      | label l => exact ih hp h hnone
      | retTag => simp only [runCode, h.tag]
      | retZero => rfl
      | branch o l =>
        simp only [primed, Bool.and_eq_true] at hp
        obtain ⟨⟨rfl, rfl⟩, hp⟩ := hp
        simp only [runCode, h.r1 rfl, h.r2 rfl]
        split
        · exact ih hp h (by simp)
        · exact ih hp h (by simp)

end Runs

/-! ## 2. What is compiled -/

/-- The bytes that the code of a term takes. -/
def WkTerm.bytes : WkTerm → Nat
  | .var _ _ | .imm _ | .tag _ => 6
  | .op .or => 7
  | .op _ => 8
  | .bogus => 0

/-- The bytes that the code of a predicate takes. -/
def wkBytes (ts : List WkTerm) : Nat :=
  prologueBytes + (ts.map WkTerm.bytes).sum + VInst.retTag.bytes + VInst.retZero.bytes +
    epilogueBytes

def WkTerm.isOperand : WkTerm → Bool
  | .var _ _ | .imm _ => true
  | _ => false

def WkOp.compares : WkOp → Bool
  | .gt | .lt | .gte | .lte | .eq | .neq => true
  | .or | .bogus => false

/-- Every comparison comes after two operands. -/
def OperandsFirst (ts : List WkTerm) : Prop :=
  ∀ pre o post, ts = pre ++ .op o :: post → o.compares = true → 2 ≤ pre.countP WkTerm.isOperand

/-- What was checked of a variable. -/
def Checked (m : Mem) (e : Env) (a k : BitVec 32) : Prop :=
  ∃ c, envGetcap e k = .ok c ∧
    ((m.pages (a.toNat / 4096)).status = .kernro ∨
      (m.pages (a.toNat / 4096)).status = .user ∧
        aclAccess c.1 (m.pages (a.toNat / 4096)).acl aclR = .ok ())

/-- The register has been assigned. -/
def assigned (x : WkReg) (code : List VInst) : Bool :=
  code.any fun
    | .ldui y _ | .setu y _ => y = x
    | _ => false

/-- The instructions that put an operand into a register. -/
def VInst.assigns (i : VInst) (x : WkReg) : Prop := (∃ a, i = .ldui x a) ∨ ∃ w, i = .setu x w

def VInst.isMove : VInst → Bool
  | .ldui _ _ | .setu _ _ => true
  | _ => false

def VInst.isBranch : VInst → Bool
  | .branch _ _ => true
  | _ => false

section Code

variable {b1 b2 : Bool} {code : List VInst} {i : VInst} {x y : WkReg}

theorem primed_append : primed b1 b2 (code ++ [i]) = (primed b1 b2 code &&
    (!i.isBranch || (b1 || assigned .r1 code) && (b2 || assigned .r2 code))) := by
  induction code generalizing b1 b2 with
  | nil => cases i <;> simp [primed, assigned, VInst.isBranch]
  | cons j js ih => cases j <;> simp [primed, ih, assigned, Bool.or_assoc, Bool.and_assoc]

theorem primed_append_plain {is : List VInst} (h : ∀ i ∈ is, i.isBranch = false) :
    primed b1 b2 (code ++ is) = primed b1 b2 code := by
  induction is generalizing code with
  | nil => rw [append_nil]
  | cons i is ih =>
    rw [append_cons, ih fun j hj => h j (mem_cons_of_mem _ hj), primed_append, h i mem_cons_self]
    simp

theorem assigned_append_of_assigns (h : i.assigns x) :
    assigned y (code ++ [i]) = (assigned y code || decide (x = y)) := by
  rcases h with ⟨a, rfl⟩ | ⟨w, rfl⟩
  · simp [assigned]
  · simp [assigned]

theorem assigned_append_of_not (h : i.isMove = false) :
    assigned y (code ++ [i]) = assigned y code := by
  cases i with
  | ldui | setu => cases h
  | _ => simp [assigned]

end Code

/-- What holds of the code that was made from the terms before. -/
structure Made (m : Mem) (e : Env) (ts : List WkTerm) (g : WkGen) : Prop where
  mem : g.mem = g.pgs.foldl ppagePin m
  loads : ∀ x a, VInst.ldui x a ∈ g.code → ∃ k, .var a k ∈ ts ∧ Checked m e a k ∧
    ((m.pages (a.toNat / 4096)).status = .user → a.toNat / 4096 ∈ g.pgs)
  bytes : g.bytes = prologueBytes + (ts.map WkTerm.bytes).sum
  op1 : g.op1 = decide (ts.countP WkTerm.isOperand % 2 = 0)
  r1 : assigned .r1 g.code = decide (1 ≤ ts.countP WkTerm.isOperand)
  r2 : assigned .r2 g.code = decide (2 ≤ ts.countP WkTerm.isOperand)
  primed : OperandsFirst ts → primed false false g.code = true

section Made

variable {m : Mem} {e : Env} {ts : List WkTerm} {t : WkTerm} {g g' : WkGen} {i : VInst}

theorem made_init (m : Mem) (e : Env) : Made m e [] (.init m) :=
  ⟨rfl, by simp [WkGen.init], rfl, rfl, rfl, rfl, fun _ => rfl⟩

/-- Labels and references do not matter. -/
theorem Made.same (h : Made m e ts g) (hc : g'.code = g.code) (hb : g'.bytes = g.bytes)
    (hp : g'.pgs = g.pgs) (hm : g'.mem = g.mem) (ho : g'.op1 = g.op1) : Made m e ts g' := by
  obtain ⟨h1, h2, h3, h4, h5, h6, h7⟩ := h
  exact ⟨by rw [hm, hp, h1], by rw [hc, hp]; exact h2, by rw [hb, h3], by rw [ho, h4],
    by rw [hc, h5], by rw [hc, h6], by rw [hc]; exact h7⟩

theorem OperandsFirst.prefix (h : OperandsFirst (ts ++ [t])) : OperandsFirst ts :=
  fun pre o post heq hc => h pre o (post ++ [t]) (by rw [heq]; simp) hc

theorem Made.emit (h : Made m e ts g) (hop : t.isOperand = false) (hb : i.bytes = t.bytes)
    (hno : i.isMove = false)
    (hbr : i.isBranch = true → ∃ o, t = .op o ∧ o.compares = true) :
    Made m e (ts ++ [t]) (g.emit i) := by
  have hcount : (ts ++ [t]).countP WkTerm.isOperand = ts.countP WkTerm.isOperand := by
    simp [countP_append, hop]
  refine ⟨h.mem, fun x a hx => ?_, ?_, ?_, ?_, ?_, fun hof => ?_⟩
  · rcases mem_append.mp hx with hx | hx
    · obtain ⟨k, hk, hrest⟩ := h.loads x a hx
      exact ⟨k, by simp [hk], hrest⟩
    · rw [← mem_singleton.mp hx] at hno
      cases hno
  · simp [WkGen.emit, h.bytes, hb]
    omega
  · rw [hcount]
    exact h.op1
  · rw [hcount]
    exact (assigned_append_of_not hno).trans h.r1
  · rw [hcount]
    exact (assigned_append_of_not hno).trans h.r2
  have hprimed := h.primed hof.prefix
  change Exokernel.primed false false (g.code ++ [i]) = true
  rw [primed_append, hprimed, h.r1, h.r2]
  cases hib : i.isBranch with
  | false => rfl
  | true =>
    obtain ⟨o, rfl, ho⟩ := hbr hib
    have h2 := hof ts o [] rfl ho
    have h1 : 1 ≤ ts.countP WkTerm.isOperand := by omega
    simp [h1, h2]

theorem Made.operand (h : Made m e ts g) (hop : t.isOperand = true) (hb : i.bytes = t.bytes)
    (hi : i.assigns g.reg)
    (hl : ∀ x a, i = .ldui x a → ∃ k, t = .var a k ∧ Checked m e a k ∧
      ((m.pages (a.toNat / 4096)).status = .user → a.toNat / 4096 ∈ g.pgs)) :
    Made m e (ts ++ [t]) (g.operand i) := by
  have hcount : (ts ++ [t]).countP WkTerm.isOperand = ts.countP WkTerm.isOperand + 1 := by
    simp [countP_append, hop]
  have hreg : g.reg = if ts.countP WkTerm.isOperand % 2 = 0 then .r1 else .r2 := by
    simp [WkGen.reg, h.op1]
  have hnb : i.isBranch = false := by
    rcases hi with ⟨a, rfl⟩ | ⟨w, rfl⟩
    · rfl
    · rfl
  refine ⟨h.mem, fun x a hx => ?_, ?_, ?_, ?_, ?_, fun hof => ?_⟩
  · rcases mem_append.mp hx with hx | hx
    · obtain ⟨k, hk, hrest⟩ := h.loads x a hx
      exact ⟨k, by simp [hk], hrest⟩
    · obtain ⟨k, rfl, hrest⟩ := hl x a (mem_singleton.mp hx).symm
      exact ⟨k, by simp, hrest⟩
  · simp [WkGen.operand, WkGen.emit, h.bytes, hb]
    omega
  · rw [hcount]
    simp only [WkGen.operand, h.op1]
    by_cases hev : ts.countP WkTerm.isOperand % 2 = 0
    · have : (ts.countP WkTerm.isOperand + 1) % 2 = 1 := by omega
      simp [hev, this]
    · have : (ts.countP WkTerm.isOperand + 1) % 2 = 0 := by omega
      simp [hev, this]
  · rw [hcount]
    change assigned .r1 (g.code ++ [i]) = _
    rw [assigned_append_of_assigns hi, h.r1, hreg]
    by_cases h0 : ts.countP WkTerm.isOperand = 0
    · simp [h0]
    · have h1 : 1 ≤ ts.countP WkTerm.isOperand := by omega
      simp [h1]
  · rw [hcount]
    change assigned .r2 (g.code ++ [i]) = _
    rw [assigned_append_of_assigns hi, h.r2, hreg]
    rcases (by omega : ts.countP WkTerm.isOperand = 0 ∨ ts.countP WkTerm.isOperand = 1 ∨
      2 ≤ ts.countP WkTerm.isOperand) with h0 | h1 | h2
    · simp [h0]
    · simp [h1]
    · have h2' : 1 ≤ ts.countP WkTerm.isOperand := by omega
      simp [h2, h2']
  · change Exokernel.primed false false (g.code ++ [i]) = true
    rw [primed_append, h.primed hof.prefix, hnb]
    rfl

theorem foldl_pin_page (ps : List Nat) (q : Nat) : ∀ m : Mem,
    ((ps.foldl ppagePin m).pages q).status = (m.pages q).status ∧
      ((ps.foldl ppagePin m).pages q).acl = (m.pages q).acl := by
  induction ps with
  | nil => exact fun m => ⟨rfl, rfl⟩
  | cons p ps ih =>
    intro m
    exact ⟨(ih _).1.trans (of_update Ppage.status fun _ => rfl),
      (ih _).2.trans (of_update Ppage.acl fun _ => rfl)⟩

section

variable (h : Made m e ts g)
include h

theorem Made.genlabel
    (heq : (if g.start then g.genlabel else some g) = some g') : Made m e ts g' := by
  split at heq
  · unfold WkGen.genlabel at heq
    split at heq
    · exact some.inj heq ▸ h.same rfl rfl rfl rfl rfl
    · cases heq
  · exact some.inj heq ▸ h

/-- **A variable**: its page is checked, and pinned if it is a page of a user. -/
theorem Made.var {p k : BitVec 32} (heq : wkVar e g p k = .ok g') :
    Made m e (ts ++ [.var p k]) g' := by
  obtain ⟨hstatus, hacl⟩ := foldl_pin_page g.pgs (p.toNat / 4096) m
  rw [← h.mem] at hstatus hacl
  unfold wkVar at heq
  split at heq
  · cases heq
  split at heq
  · cases heq
  rename_i c hcap
  dsimp only at heq
  split at heq
  · cases heq
  split at heq
  · rename_i hs
    split at heq
    · cases heq
    rename_i hok
    cases heq
    have hpinned : Made m e ts
        { g with pgs := g.pgs ++ [p.toNat / 4096], mem := ppagePin g.mem (p.toNat / 4096) } :=
      { h with
        mem := by simp [h.mem]
        loads := fun x a hx => by
          obtain ⟨k', hk', hc, hp⟩ := h.loads x a hx
          exact ⟨k', hk', hc, fun hu => by simp [hp hu]⟩ }
    refine hpinned.operand rfl rfl (.inl ⟨p, rfl⟩) fun x a ha => ?_
    cases ha
    refine ⟨k, rfl, ⟨c, hcap, .inr ⟨hstatus.symm.trans hs, ?_⟩⟩, fun _ => by simp⟩
    rw [← hacl]
    exact hok
  · rename_i hs
    cases heq
    refine h.operand rfl rfl (.inl ⟨p, rfl⟩) fun x a ha => ?_
    cases ha
    refine ⟨k, rfl, ⟨c, hcap, .inl (hstatus.symm.trans hs)⟩, fun hu => ?_⟩
    rw [← hstatus, hs] at hu
    cases hu
  · cases heq

theorem Made.placeLabel : Made m e ts g.placeLabel := by
  unfold WkGen.placeLabel
  cases g.label with
  | none => exact h
  | some l =>
    refine ⟨h.mem, fun x a hx => h.loads x a (by simpa [WkGen.emit] using hx), ?_, h.op1, ?_, ?_,
      fun hof => ?_⟩
    · simp [WkGen.emit, VInst.bytes, h.bytes]
    · exact (assigned_append_of_not rfl).trans h.r1
    · exact (assigned_append_of_not rfl).trans h.r2
    change Exokernel.primed false false (g.code ++ [.label l]) = true
    rw [primed_append, h.primed hof]
    rfl

theorem Made.op {o : WkOp} (heq : wkOp g o = .ok g') :
    Made m e (ts ++ [.op o]) g' := by
  have hbranch : o.compares = true → WkOut.ofOption (g.branch o) = .ok g' →
      Made m e (ts ++ [.op o]) g' := by
    intro hc hb
    unfold WkGen.branch at hb
    split at hb
    · cases hb
      have hbytes : (VInst.branch o (g.label.getD 0)).bytes = (WkTerm.op o).bytes := by
        cases o with
        | or | bogus => cases hc
        | _ => rfl
      exact (h.emit rfl hbytes rfl fun _ => ⟨o, rfl, hc⟩).same rfl rfl rfl rfl rfl
    · cases hb
  cases o with
  | gt | lt | gte | lte | eq | neq => exact hbranch rfl heq
  | bogus => cases heq
  | or =>
    simp only [wkOp, WkGen.retu] at heq
    split at heq
    · cases heq
      have hret := h.emit (t := .op .or) (i := .retTag) rfl rfl rfl nofun
      have hret' : Made m e (ts ++ [.op .or]) { g.emit .retTag with rets := g.rets + 1 } :=
        hret.same rfl rfl rfl rfl rfl
      exact hret'.placeLabel.same rfl rfl rfl rfl rfl
    · cases heq

/-- **One round.** -/
theorem Made.round (heq : wkRound e g t = .ok g') : Made m e (ts ++ [t]) g' := by
  unfold wkRound at heq
  split at heq
  · cases heq
  rename_i g₁ hlabel
  have h₁ := h.genlabel hlabel
  split at heq
  · cases heq
  cases t with
  | var p k => exact h₁.var heq
  | imm w =>
    cases heq
    exact h₁.operand rfl rfl (.inr ⟨w, rfl⟩) nofun
  | tag w =>
    cases heq
    exact h₁.emit rfl rfl rfl nofun
  | op o => exact h₁.op heq
  | bogus => cases heq

theorem Made.round_fail {r : Errno} (heq : wkRound e g t = .fail r g') :
    Made m e ts g' := by
  unfold wkRound at heq
  split at heq
  · cases heq
  rename_i g₁ hlabel
  have h₁ := h.genlabel hlabel
  split at heq
  · cases heq
    exact h₁
  cases t with
  | var p k =>
    simp only [wkVar] at heq
    repeat' split at heq
    all_goals cases heq
    all_goals exact h₁
  | imm w => cases heq
  | tag w => cases heq
  | op o =>
    cases o with
    | bogus =>
      cases heq
      exact h₁
    | or =>
      simp only [wkOp] at heq
      cases hret : g₁.retu with
      | none => simp [hret, WkOut.ofOption] at heq
      | some g₂ => simp [hret, WkOut.ofOption] at heq
    | gt | lt | gte | lte | eq | neq =>
      simp only [wkOp, WkGen.branch] at heq
      split at heq
      · cases heq
      · cases heq
  | bogus =>
    cases heq
    exact h₁

/-- **The loop.** The induction is over the terms that are left; they can all be read. -/
theorem Made.loop {rest : List (Option WkTerm)}
    (heq : wkLoop e rest g = .ok g') :
    ∃ ws, rest = ws.map some ∧ Made m e (ts ++ ws) g' := by
  induction rest generalizing ts g with
  | nil =>
    cases heq
    exact ⟨[], rfl, by simpa using h⟩
  | cons t rest ih =>
    cases t with
    | none => cases heq
    | some t =>
      rw [wkLoop] at heq
      split at heq
      · rename_i g₁ hround
        obtain ⟨ws, rfl, hws⟩ := ih (h.round hround) heq
        exact ⟨t :: ws, rfl, by simpa using hws⟩
      · cases heq
      · cases heq

theorem Made.loop_fail {rest : List (Option WkTerm)} {r : Errno}
    (heq : wkLoop e rest g = .fail r g') : g'.mem = g'.pgs.foldl ppagePin m := by
  induction rest generalizing ts g with
  | nil => cases heq
  | cons t rest ih =>
    cases t with
    | none =>
      cases heq
      exact h.mem
    | some t =>
      rw [wkLoop] at heq
      split at heq
      · rename_i g₁ hround
        exact ih (h.round hround) heq
      · rename_i g₁ hround
        cases heq
        exact (h.round_fail hround).mem
      · cases heq

end

/-- What holds of the code in the end. -/
structure Compiled (m : Mem) (e : Env) (ts : List WkTerm) (g : WkGen) : Prop where
  mem : g.mem = g.pgs.foldl ppagePin m
  loads : ∀ x a, VInst.ldui x a ∈ g.code → ∃ k, .var a k ∈ ts ∧ Checked m e a k ∧
    ((m.pages (a.toNat / 4096)).status = .user → a.toNat / 4096 ∈ g.pgs)
  bytes : g.bytes = wkBytes ts
  primed : OperandsFirst ts → primed false false g.code = true

theorem wkFinish_ok (heq : wkFinish g = .ok g') :
    ∃ code, g'.code = g.code ++ code ∧ (∀ i ∈ code, i.isMove = false ∧ i.isBranch = false) ∧
      g'.bytes = g.bytes + VInst.retTag.bytes + VInst.retZero.bytes + epilogueBytes ∧
      g'.pgs = g.pgs ∧ g'.mem = g.mem := by
  unfold wkFinish WkGen.retu at heq
  split at heq
  · cases heq
  split at heq
  · simp only [map_some, bind_some, WkGen.retui] at heq
    split at heq
    · cases heq
      cases hl : g.label with
      | none =>
        refine ⟨[.retTag, .retZero], ?_⟩
        simp [WkGen.placeLabel, WkGen.emit, hl, VInst.isMove, VInst.isBranch]
      | some l =>
        refine ⟨[.retTag, .label l, .retZero], ?_⟩
        simp [WkGen.placeLabel, WkGen.emit, hl, VInst.isMove, VInst.isBranch, VInst.bytes]
    · cases heq
  · cases heq

theorem Made.finish (h : Made m e ts g) (heq : wkFinish g = .ok g') : Compiled m e ts g' := by
  obtain ⟨code, hcode, hplain, hbytes, hpgs, hmem⟩ := wkFinish_ok heq
  refine ⟨by rw [hmem, hpgs, h.mem], fun x a hx => ?_, ?_, fun hof => ?_⟩
  · rw [hcode] at hx
    rw [hpgs]
    rcases mem_append.mp hx with hx | hx
    · exact h.loads x a hx
    · exact nomatch (hplain _ hx).1
  · rw [hbytes, h.bytes, wkBytes]
  · rw [hcode, primed_append_plain fun i hi => (hplain i hi).2]
    exact h.primed hof

/-- **`wk_compile`**: code that is accepted, and a failure. -/
theorem wkCompile_ok {ts : List (Option WkTerm)} (heq : wkCompile m e ts = .ok g) :
    ∃ ws, ts = ws.map some ∧ Compiled m e ws g := by
  unfold wkCompile at heq
  split at heq
  · rename_i hloop
    obtain ⟨ws, rfl, hws⟩ := (made_init m e).loop hloop
    exact ⟨ws, rfl, hws.finish heq⟩
  · rename_i hne
    exact absurd heq (hne g)

theorem wkCompile_fail {ts : List (Option WkTerm)} {r : Errno}
    (heq : wkCompile m e ts = .fail r g) : g.mem = g.pgs.foldl ppagePin m := by
  unfold wkCompile at heq
  split at heq
  · rename_i g₁ hloop
    obtain ⟨ws, -, hws⟩ := (made_init m e).loop hloop
    unfold wkFinish at heq
    split at heq
    · cases heq
      exact hws.mem
    cases hres : (g₁.retu.map WkGen.placeLabel).bind fun g => g.retui.map fun g =>
      { g with bytes := g.bytes + epilogueBytes } with
    | none => simp [hres, WkOut.ofOption] at heq
    | some g₂ => simp [hres, WkOut.ofOption] at heq
  · exact (made_init m e).loop_fail heq

end Made

/-! ## 3. Pins -/

/-- The pages that the predicate of an environment pins. -/
def WkSys.pgs (s : WkSys) (i : Fin nenv) : List Nat := ((s.preds i).map WkPred.pgs).getD []

/-- A page is pinned by the predicates that name it, and by what else holds it. -/
def WkSys.Balanced (s : WkSys) : Prop :=
  ∀ p, (s.mem.pages p).pinned = s.held p + ∑ i, (s.pgs i).count p

section Balance

variable {s s' : WkSys} {i : Fin nenv} {m : Mem}

theorem WkSys.Balanced.count_le (h : s.Balanced) (i : Fin nenv) (p : Nat) :
    (s.pgs i).count p ≤ (s.mem.pages p).pinned := by
  have := Finset.single_le_sum (fun j _ => Nat.zero_le ((s.pgs j).count p)) (Finset.mem_univ i)
  have := h p
  omega

theorem WkSys.Balanced.exchange (h : s.Balanced) (hheld : s'.held = s.held)
    (hother : ∀ j, j ≠ i → s'.pgs j = s.pgs j)
    (hpins : ∀ p, (s'.mem.pages p).pinned + (s.pgs i).count p =
      (s.mem.pages p).pinned + (s'.pgs i).count p) : s'.Balanced := by
  intro p
  have hs := h p
  have hp := hpins p
  have hrest : ∑ j ∈ Finset.univ.erase i, (s'.pgs j).count p =
      ∑ j ∈ Finset.univ.erase i, (s.pgs j).count p :=
    Finset.sum_congr rfl fun j hj => by rw [hother j (Finset.ne_of_mem_erase hj)]
  rw [← Finset.add_sum_erase _ _ (Finset.mem_univ i)] at hs ⊢
  rw [hrest, hheld]
  omega

theorem unpinAll_foldl_pin (m : Mem) (ps : List Nat) :
    SamePins m (unpinAll (ps.foldl ppagePin m) ps) := by
  have hpins := (foldl_pin ps m).1
  intro p
  rw [unpinAll, foldl_unpin _ fun q => by rw [hpins q]; omega]
  dsimp only
  rw [hpins p, Nat.add_sub_cancel]

theorem wkFree_preds (s : WkSys) (i : Fin nenv) :
    (wkFree s i).preds = update s.preds i none ∧ (wkFree s i).envs = s.envs ∧
      (wkFree s i).held = s.held := by
  unfold wkFree
  split
  · rename_i hnone
    exact ⟨by rw [← hnone, update_eq_self], rfl, rfl⟩
  · exact ⟨rfl, rfl, rfl⟩

theorem WkSys.Balanced.free (h : s.Balanced) (i : Fin nenv) : (wkFree s i).Balanced := by
  obtain ⟨hpreds, -, hheld⟩ := wkFree_preds s i
  refine h.exchange (i := i) hheld (fun j hj => ?_) fun p => ?_
  · rw [WkSys.pgs, hpreds, update_of_ne hj, WkSys.pgs]
  have hle := h.count_le i
  have hnil : (wkFree s i).pgs i = [] := by simp [WkSys.pgs, hpreds]
  rw [hnil, count_nil]
  unfold wkFree
  cases hp : s.preds i with
  | none => simp [WkSys.pgs, hp]
  | some q =>
    have hq : s.pgs i = q.pgs := by simp [WkSys.pgs, hp]
    rw [hq] at hle ⊢
    simp only [unpinAll, foldl_unpin _ hle]
    have := hle p
    omega

/-- **`sys_wkpred`**: the old predicate is gone, and if there is a new one it is what
    `wk_compile` has made. -/
theorem sysWkpred_cases {ts : Option (List (Option WkTerm))} {r : Except Errno Unit}
    (heq : sysWkpred s i ts = some (r, s')) :
    (∃ m, SamePins (wkFree s i).mem m ∧ s' = { wkFree s i with mem := m } ∧
      (ts = none ∨ r ≠ .ok ())) ∨
    ∃ m g ws, SamePins (wkFree s i).mem m ∧ ts = some (ws.map some) ∧
      Compiled m ((wkFree s i).envs i) ws g ∧
      s' = { wkFree s i with
        mem := g.mem
        preds := update (wkFree s i).preds i (some ⟨g.code, g.bytes, g.pgs⟩) } := by
  unfold sysWkpred at heq
  dsimp only at heq
  split at heq
  · cases heq
    exact .inl ⟨_, .refl _, rfl, .inl rfl⟩
  split at heq
  · rename_i m₁ h₁
    cases heq
    exact .inl ⟨m₁, .kmalloc h₁, rfl, .inr nofun⟩
  rename_i m₁ h₁
  split at heq
  · rename_i m₂ h₂
    cases heq
    exact .inl ⟨m₂, .trans (.kmalloc h₁) (.kmalloc h₂), rfl, .inr nofun⟩
  rename_i m₂ h₂
  have hsame : SamePins (wkFree s i).mem m₂ := .trans (.kmalloc h₁) (.kmalloc h₂)
  split at heq
  · cases heq
  · rename_i e g hfail
    cases heq
    rw [wkCompile_fail hfail]
    exact .inl ⟨_, hsame.trans (unpinAll_foldl_pin m₂ g.pgs), rfl, .inr nofun⟩
  · rename_i g hok
    cases heq
    obtain ⟨ws, rfl, hws⟩ := wkCompile_ok hok
    exact .inr ⟨m₂, g, ws, hsame, rfl, hws, rfl⟩

theorem WkSys.Balanced.wkpred {ts : Option (List (Option WkTerm))} {r : Except Errno Unit}
    (h : s.Balanced) (heq : sysWkpred s i ts = some (r, s')) : s'.Balanced := by
  have hfree := h.free i
  have hnone : (wkFree s i).pgs i = [] := by simp [WkSys.pgs, (wkFree_preds s i).1]
  rcases sysWkpred_cases heq with ⟨m, hm, rfl, -⟩ | ⟨m, g, ws, hm, -, hg, rfl⟩
  · exact fun p => (hm p).trans (hfree p)
  refine hfree.exchange (i := i) rfl (fun j hj => ?_) fun p => ?_
  · simp [WkSys.pgs, update_of_ne hj]
  have hpins := (foldl_pin g.pgs m).1 p
  rw [← hg.mem, hm p] at hpins
  rw [hnone, count_nil]
  simpa [WkSys.pgs] using hpins

end Balance

/-! ## 4. What a predicate can see -/

/-- The calls that install and remove predicates, and the rest of the kernel, with the state it
    leaves. -/
inductive WkCall where
  | wkpred (i : Fin nenv) (ts : Option (List (Option WkTerm)))
  | free (i : Fin nenv)
  | rest (t : WkSys)

/-- The rest of the kernel changes anything but predicates. -/
def WkCall.Step (s : WkSys) (c : WkCall) (s' : WkSys) : Prop :=
  match c with
  | .wkpred i ts => ∃ r, sysWkpred s i ts = some (r, s')
  | .free i => s' = wkFree s i
  | .rest t => s' = t ∧ t.preds = s.preds

/-- Terms whose words end in the page they start in, whose comparisons have operands, and whose
    code fits its buffer. -/
structure WkSound (ts : List (Option WkTerm)) : Prop where
  ne : ts ≠ []
  words : ∀ a k, some (.var a k) ∈ ts → a.toNat % 4096 + 4 ≤ 4096
  operands : OperandsFirst ts.reduceOption
  fits : wkBytes ts.reduceOption ≤ wkMaxCodeBytes

/-- Predicates are sound, and the rest of the kernel gives up only pins that it has made. **A raw
    disk request does so only if it finds its pages again**: `disk_buf_free` unpins whatever is
    mapped at the request's addresses when it completes. -/
def WkCall.Sound (s : WkSys) : WkCall → Prop
  | .wkpred _ (some ts) => WkSound ts
  | .rest t => ∀ p, (t.mem.pages p).pinned + s.held p = (s.mem.pages p).pinned + t.held p
  | _ => True

/-- A variable of the terms is in the page, and its capability lets the environment read it. -/
def WkSys.Granted (s : WkSys) (i : Fin nenv) (ts : List (Option WkTerm)) (pg : Nat) : Prop :=
  ∃ a k, some (.var a k) ∈ ts ∧ a.toNat / 4096 = pg ∧ Checked s.mem (s.envs i) a k

/-- What is asked of a predicate that was installed in the state. -/
structure Confined (s : WkSys) (i : Fin nenv) (ts : List (Option WkTerm)) (p : WkPred) :
    Prop where
  loads : ∀ mem r1 r2 v as, p.Runs mem r1 r2 v as → ∀ a ∈ as, ∀ j < 4,
    s.Granted i ts ((a.toNat + j) / 4096)
  pinned : ∀ mem r1 r2 v as, p.Runs mem r1 r2 v as → ∀ a ∈ as, ∀ j < 4,
    (s.mem.pages ((a.toNat + j) / 4096)).status = .user →
    ∀ t, Run.Reaches WkCall.Step WkCall.Sound s t → t.preds i = some p →
      0 < (t.mem.pages ((a.toNat + j) / 4096)).pinned
  value : ∀ mem mem' r1 r2 r1' r2' v v' as as',
    (∀ b, s.Granted i ts (b / 4096) → mem () b = mem' () b) →
    p.Runs mem r1 r2 v as → p.Runs mem' r1' r2' v' as' → v = v'

section Runs

variable {s₀ s s' t : WkSys} {i : Fin nenv} {ts : List (Option WkTerm)}

theorem WkSys.Balanced.step (h : s.Balanced) {c : WkCall} (hsound : c.Sound s)
    (hstep : c.Step s s') : s'.Balanced := by
  cases c with
  | wkpred i ts =>
    obtain ⟨r, heq⟩ := hstep
    exact h.wkpred heq
  | free i =>
    obtain rfl : s' = wkFree s i := hstep
    exact h.free i
  | rest t =>
    obtain ⟨rfl, hpreds⟩ := hstep
    intro p
    have hpgs : ∀ j, s'.pgs j = s.pgs j := fun j => by rw [WkSys.pgs, hpreds, WkSys.pgs]
    have hs := h p
    have hp := hsound p
    simp only [hpgs]
    omega

theorem WkSys.Balanced.run (h : s.Balanced)
    (hrun : Run.Reaches WkCall.Step WkCall.Sound s t) : t.Balanced :=
  hrun.invariant h fun _ _ _ hb hsound hstep => hb.step hsound hstep

theorem balanced_boot (hpreds : ∀ j, s₀.preds j = none)
    (hheld : ∀ p, (s₀.mem.pages p).pinned = s₀.held p) : s₀.Balanced := by
  intro p
  simp [WkSys.pgs, hpreds, hheld]

theorem WkSys.Balanced.pinned {p : WkPred} {pg : Nat} (h : s.Balanced)
    (hp : s.preds i = some p) (hpg : pg ∈ p.pgs) : 0 < (s.mem.pages pg).pinned := by
  have hle := h.count_le i pg
  have hpos : 0 < (s.pgs i).count pg := count_pos_iff.mpr (by simpa [WkSys.pgs, hp] using hpg)
  omega

/-- The pages that `wk_compile` has checked are the same when the predicate is there. -/
theorem Compiled.checked {m : Mem} {e : Env} {ws : List WkTerm} {g : WkGen} {a k : BitVec 32}
    (h : Compiled m e ws g) (hc : Checked m e a k) : Checked g.mem e a k := by
  obtain ⟨hstatus, hacl⟩ := foldl_pin_page g.pgs (a.toNat / 4096) m
  rw [← h.mem] at hstatus hacl
  rwa [Checked, hstatus, hacl]

/-- **What a predicate can see**: in every run whose calls are sound, it loads from pages
    that its environment was allowed to read when it was installed; they stay pinned as long as
    it is; and what it returns depends on nothing else. -/
theorem predicate_confined (hpreds : ∀ j, s₀.preds j = none)
    (hheld : ∀ p, (s₀.mem.pages p).pinned = s₀.held p)
    (hrun : Run.Reaches WkCall.Step WkCall.Sound s₀ s) (hsound : WkSound ts)
    (heq : sysWkpred s i (some ts) = some (.ok (), s')) :
    ∃ p, s'.preds i = some p ∧ Confined s' i ts p := by
  have hbal : s'.Balanced := ((balanced_boot hpreds hheld).run hrun).wkpred heq
  rcases sysWkpred_cases heq with ⟨-, -, -, hbad⟩ | ⟨m, g, ws, -, hts, hg, hs'⟩
  · exact absurd hbad (by simp)
  obtain rfl : ts = ws.map some := some.inj hts
  have hws : (ws.map some).reduceOption = ws := by
    rw [List.reduceOption, filterMap_map, Function.comp_def]
    exact filterMap_some
  have hi : s'.preds i = some ⟨g.code, g.bytes, g.pgs⟩ := by
    rw [hs']
    exact update_self ..
  have hmem : s'.mem = g.mem := by rw [hs']
  have henv : s'.envs i = (wkFree s i).envs i := by rw [hs']
  have hfits : g.bytes ≤ wkMaxCodeBytes := by
    rw [hg.bytes, ← hws]
    exact hsound.fits
  -- every load is a variable of the terms, and its whole word is in the page that was checked
  have hload : ∀ x a, VInst.ldui x a ∈ g.code → ∀ j < 4,
      (a.toNat + j) / 4096 = a.toNat / 4096 ∧
      s'.Granted i (ws.map some) (a.toNat / 4096) ∧
      ((s'.mem.pages (a.toNat / 4096)).status = .user → a.toNat / 4096 ∈ g.pgs) := by
    intro x a hx j hj
    obtain ⟨k, hk, hc, hp⟩ := hg.loads x a hx
    have hk' : some (.var a k) ∈ ws.map some := mem_map_of_mem hk
    have hword := hsound.words a k hk'
    refine ⟨by omega, ⟨a, k, hk', rfl, ?_⟩, fun hu => hp ?_⟩
    · rw [hmem, henv]
      exact hg.checked hc
    · rw [hmem, hg.mem, (foldl_pin_page g.pgs _ m).1] at hu
      exact hu
  have hloads : ∀ mem r1 r2 v as, WkPred.Runs ⟨g.code, g.bytes, g.pgs⟩ mem r1 r2 v as →
      ∀ a ∈ as, ∃ x, VInst.ldui x a ∈ g.code := by
    intro mem r1 r2 v as hr a ha
    have hrun := hr hfits
    exact runCode_loads (by rw [hrun]; exact ha)
  refine ⟨_, hi, ⟨?_, ?_, ?_⟩⟩
  · intro mem r1 r2 v as hr a ha j hj
    obtain ⟨x, hx⟩ := hloads mem r1 r2 v as hr a ha
    obtain ⟨hpage, hgr, -⟩ := hload x a hx j hj
    rwa [hpage]
  · intro mem r1 r2 v as hr a ha j hj hu t ht hp
    obtain ⟨x, hx⟩ := hloads mem r1 r2 v as hr a ha
    obtain ⟨hpage, -, hpin⟩ := hload x a hx j hj
    rw [hpage] at hu ⊢
    exact (hbal.run ht).pinned hp (hpin hu)
  intro mem mem' r1 r2 r1' r2' v v' as as' hsame hr hr'
  have hwords : ∀ x a, VInst.ldui x a ∈ g.code → mem.ld32 () a.toNat = mem'.ld32 () a.toNat := by
    intro x a hx
    have hbyte : ∀ j < 4, mem () (a.toNat + j) = mem' () (a.toNat + j) := fun j hj => by
      obtain ⟨hpage, hgr, -⟩ := hload x a hx j hj
      exact hsame _ (by rwa [hpage])
    rw [Store.ld32, Store.ld32, hbyte 3 (by omega), hbyte 2 (by omega), hbyte 1 (by omega)]
    exact congrArg _ (hbyte 0 (by omega))
  have hprimed : primed false false g.code = true := hg.primed (hws ▸ hsound.operands)
  have hregs : runCode mem none g.code ⟨r1, r2, -1⟩ = runCode mem none g.code ⟨r1', r2', -1⟩ :=
    runCode_regs hprimed ⟨by simp, by simp, rfl⟩ (by simp)
  have hval : (v, as) = (v', as') := by
    rw [← hr hfits, ← hr' hfits, hregs]
    exact runCode_congr hwords
  exact (Prod.mk.inj hval).1

/-- Page 1 is shown to everybody, page 2 belongs to the kernel, and page 3 to the first
    environment. -/
def wkBoot : WkSys where
  mem := (bootMem 4 (by decide) fun p =>
    if p = 1 then .kernro else if p = 3 then .user else .kernel).modPage 3
      fun pp => { pp with acl := [AclEntry.ofCap rootCap.1] }
  envs := fun _ => bootEnv rootCap
  preds := fun _ => none
  held := fun _ => 0

theorem sysWkpred_isOk {ts : Option (List (Option WkTerm))}
    (h : ((sysWkpred s i ts).map fun x => x.1.isOk) = some true) :
    ∃ s', sysWkpred s i ts = some (.ok (), s') := by
  obtain ⟨⟨r, s'⟩, heq, hr⟩ := map_eq_some_iff.mp h
  cases r with
  | error e => cases hr
  | ok u => exact ⟨s', heq⟩

theorem predicate_confined_user : ∃ s' p,
    sysWkpred wkBoot 0 (some [some (.var 0x3ffc 0), some (.imm 7), some (.op .gt)]) =
      some (.ok (), s') ∧ s'.preds 0 = some p ∧
    Confined s' 0 [some (.var 0x3ffc 0), some (.imm 7), some (.op .gt)] p := by
  have hok : ((sysWkpred wkBoot 0 (some [some (.var 0x3ffc 0), some (.imm 7),
      some (.op .gt)])).map fun x => x.1.isOk) = some true := by decide +kernel
  obtain ⟨s', heq⟩ := sysWkpred_isOk hok
  have hsound : WkSound [some (.var 0x3ffc 0), some (.imm 7), some (.op .gt)] := by
    refine ⟨by simp, ?_, ?_, by decide⟩
    · intro a k h
      obtain ⟨rfl, -⟩ : a = 0x3ffc ∧ k = 0 := by simpa using h
      decide
    intro pre o post h _
    have h : [WkTerm.var 0x3ffc 0, .imm 7, .op .gt] = pre ++ .op o :: post := h
    match pre, h with
    | [], h => simp at h
    | [_], h => simp at h
    | [x, y], h =>
      obtain ⟨rfl, rfl, -⟩ := by simpa using h
      decide
    | _ :: _ :: _ :: _, h => simp at h
  have hheld : ∀ p, (wkBoot.mem.pages p).pinned = wkBoot.held p := by
    intro p
    by_cases hp : p = 3
    · subst hp
      rfl
    · simp [wkBoot, Mem.modPage, update_of_ne hp, bootMem, Ppage.init]
  have hpreds : ∀ j, wkBoot.preds j = none := fun _ => rfl
  obtain ⟨p, hp, hc⟩ := predicate_confined hpreds hheld .refl hsound heq
  exact ⟨s', p, heq, hp, hc⟩

/-- The last byte of page 1 is the first byte of a word. It is accepted, and the byte behind it,
    of a page of the kernel, decides whether the environment is woken. -/
theorem word_crosses_page : ∃ s' p,
    sysWkpred wkBoot 0 (some [some (.var 0x1fff 0), some (.imm 0xff), some (.op .gt)]) =
      some (.ok (), s') ∧ s'.preds 0 = some p ∧ p.bytes ≤ wkMaxCodeBytes ∧
    ¬s'.Granted 0 [some (.var 0x1fff 0), some (.imm 0xff), some (.op .gt)] 2 ∧
    (s'.mem.pages 2).status = .kernel ∧
    ∃ mem mem' : Store Unit, (∀ b, b / 4096 ≠ 2 → mem () b = mem' () b) ∧
      p.Runs mem 0 0 0 [0x1fff] ∧ p.Runs mem' 0 0 (-1) [0x1fff] := by
  have hok : ((sysWkpred wkBoot 0 (some [some (.var 0x1fff 0), some (.imm 0xff),
      some (.op .gt)])).map fun x => x.1.isOk) = some true := by decide +kernel
  obtain ⟨s', heq⟩ := sysWkpred_isOk hok
  have hpred : ((sysWkpred wkBoot 0 (some [some (.var 0x1fff 0), some (.imm 0xff),
      some (.op .gt)])).bind fun x => (x.2.preds 0).map fun p =>
        (p.code, p.bytes, (x.2.mem.pages 2).status)) =
      some ([.ldui .r1 0x1fff, .setu .r2 0xff, .branch .gt 1, .retTag, .label 1, .retZero], 87,
        .kernel) := by decide +kernel
  rw [heq, bind_some, map_eq_some_iff] at hpred
  obtain ⟨⟨code, bytes, pgs⟩, hp, h⟩ := hpred
  obtain ⟨rfl, h⟩ := Prod.mk.inj h
  obtain ⟨rfl, hstatus⟩ := Prod.mk.inj h
  refine ⟨s', _, heq, hp, by dsimp only; decide, ?_, hstatus, fun _ _ => 0,
    fun _ b => if b = 0x2000 then 1 else 0, fun b hb => ?_, fun _ => ?_, fun _ => ?_⟩
  · rintro ⟨a, k, hmem, hpage, -⟩
    obtain ⟨rfl, -⟩ : a = 0x1fff ∧ k = 0 := by simpa using hmem
    exact absurd hpage (by decide)
  · have hne : b ≠ 0x2000 := by
      rintro rfl
      exact hb (by decide)
    simp [hne]
  · dsimp only
    decide +kernel
  · dsimp only
    decide +kernel

end Runs

end Exokernel
