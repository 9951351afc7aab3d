import Exokernel.Kern.Env
import Exokernel.Lib.Bytes

/-!
# Wake-up predicates — `kern/wk.c`

An environment that sleeps leaves a predicate behind: a sum of products of comparisons between
immediates and words of physical memory. `sys_wkpred` compiles it to machine code, and the
scheduler calls this code to see whether the environment should be woken.

**Pages are checked, words are loaded.** For a variable the page of its address has to be
readable for the environment. The code that is generated loads four bytes from there.

The code is a list of the instructions of `vcode` with the number of bytes that they take. A
label is what it was set to last. Assertions of `vcode` stop the kernel. Without a term the
label at the end is an uninitialised variable, and is left out here.
-/
set_option autoImplicit false

namespace Exokernel

/-! ## 1. Terms — `xok/wk.h` -/

/-- `enum wk_ops`, and any other number. -/
inductive WkOp where
  | gt | lt | gte | lte | eq | neq | or | bogus
deriving DecidableEq, Repr

/-- `struct wk_term`; a term of a type that does not exist is `bogus`. -/
inductive WkTerm where
  | var (p k : BitVec 32)
  | imm (i : BitVec 32)
  | tag (t : BitVec 32)
  | op (o : WkOp)
  | bogus
deriving DecidableEq, Repr

/-- `WK_MAX_PP`, `WK_MAX_CODE_BYTES` and `OVERRUN_SAFETY`. -/
abbrev wkMaxPp : Nat := 128
abbrev wkMaxCodeBytes : Nat := 4096
abbrev overrunSafety : Nat := 20

/-! ## 2. Code — `vcode/vcode.c` and `vcode/x86-codegen.h` -/

/-- The registers that hold the operands. -/
inductive WkReg where
  | r1 | r2
deriving DecidableEq, Repr

/-- An instruction. A branch is taken if the comparison does *not* hold. -/
inductive VInst where
  | ldui (r : WkReg) (addr : BitVec 32)
  | setu (r : WkReg) (imm : BitVec 32)
  | setTag (imm : BitVec 32)
  | branch (o : WkOp) (l : Nat)
  | retTag
  | label (l : Nat)
  | retZero
deriving DecidableEq, Repr

/-- The bytes of an instruction. -/
def VInst.bytes : VInst → Nat
  | .ldui _ _ | .setu _ _ | .setTag _ => 6
  | .branch _ _ => 8
  | .retTag => 7
  | .label _ => 0
  | .retZero => 11

/-- The bytes of the prologue with the first two assignments, and those of the epilogue. -/
abbrev prologueBytes : Nat := 34
abbrev epilogueBytes : Nat := 15

/-- `MAX_LABELS` and `MAX_REFS`. -/
abbrev maxLabels : Nat := 256
abbrev maxRefs : Nat := 128

/-! ## 3. `wk_compile` -/

/-- What has been generated: the code and its size, the label of the end of the term, the
    number of labels, how often that label and the one of the epilogue are used, `start_term`,
    `op1`, and the pages that are pinned. Label 0 is the one of the epilogue. -/
structure WkGen where
  code : List VInst
  bytes : Nat
  label : Option Nat
  labels : Nat
  refs : Nat
  rets : Nat
  start : Bool
  op1 : Bool
  pgs : List Nat
  mem : Mem

/-- The outcome of a piece of `wk_compile`: it goes on, returns an error, or an assertion
    fails. -/
inductive WkOut where
  | ok (g : WkGen)
  | fail (r : Errno) (g : WkGen)
  | panic

namespace WkGen

def init (m : Mem) : WkGen := ⟨[], prologueBytes, none, 1, 0, 0, true, true, [], m⟩

def emit (g : WkGen) (i : VInst) : WkGen :=
  { g with code := g.code ++ [i], bytes := g.bytes + i.bytes }

/-- The register of the next operand. -/
def reg (g : WkGen) : WkReg := if g.op1 then .r1 else .r2

/-- An operand goes into its register. -/
def operand (g : WkGen) (i : VInst) : WkGen := { g.emit i with op1 := !g.op1 }

/-- `OVERRUN_CHECK`. -/
def overrun (g : WkGen) : Bool := decide (wkMaxCodeBytes - overrunSafety < g.bytes)

/-- `end_of_term = v_genlabel ()`. -/
def genlabel (g : WkGen) : Option WkGen :=
  if g.labels < maxLabels then
    some { g with label := some g.labels, labels := g.labels + 1, refs := 0, start := false }
  else none

/-- `v_retu (tag)`, a jump to the epilogue. -/
def retu (g : WkGen) : Option WkGen :=
  if g.rets < maxRefs then some { g.emit .retTag with rets := g.rets + 1 } else none

/-- `v_retui (0)`. -/
def retui (g : WkGen) : Option WkGen :=
  if g.rets < maxRefs then some { g.emit .retZero with rets := g.rets + 1 } else none

/-- `v_label (end_of_term)`. -/
def placeLabel (g : WkGen) : WkGen :=
  match g.label with
  | some l => g.emit (.label l)
  | none => g

/-- A branch to `end_of_term`. -/
def branch (g : WkGen) (o : WkOp) : Option WkGen :=
  if g.refs < maxRefs then
    some { g.emit (.branch o (g.label.getD 0)) with refs := g.refs + 1 }
  else none

end WkGen

/-- `WK_VAR`. -/
def wkVar (e : Env) (g : WkGen) (p k : BitVec 32) : WkOut :=
  if wkMaxPp - 1 ≤ g.pgs.length then .fail .inval g
  else
    match envGetcap e k with
    | .error r => .fail r g
    | .ok c =>
      let ppn := p.toNat / 4096
      if ppn = 0 ∨ g.mem.nppage ≤ ppn then .fail .inval g
      else
        match (g.mem.pages ppn).status with
        | .user =>
          match aclAccess c.1 (g.mem.pages ppn).acl aclR with
          | .error r => .fail r g
          | .ok () =>
            .ok ({ g with pgs := g.pgs ++ [ppn], mem := ppagePin g.mem ppn }.operand
              (.ldui g.reg p))
        | .kernro => .ok (g.operand (.ldui g.reg p))
        | _ => .fail .inval g

/-- A step that an assertion may stop. -/
def WkOut.ofOption : Option WkGen → WkOut
  | some g => .ok g
  | none => .panic

/-- `WK_OP`. -/
def wkOp (g : WkGen) (o : WkOp) : WkOut :=
  match o with
  | .gt | .lt | .gte | .lte | .eq | .neq => .ofOption (g.branch o)
  | .or => .ofOption ((g.retu).map fun g => { g.placeLabel with start := true })
  | .bogus => .fail .inval g

/-- One round of the loop. -/
def wkRound (e : Env) (g : WkGen) (t : WkTerm) : WkOut :=
  match if g.start then g.genlabel else some g with
  | none => .panic
  | some g =>
    if g.overrun then .fail .inval g
    else
      match t with
      | .var p k => wkVar e g p k
      | .imm i => .ok (g.operand (.setu g.reg i))
      | .tag t => .ok (g.emit (.setTag t))
      | .op o => wkOp g o
      | .bogus => .fail .inval g

/-- The loop of `wk_compile`. A term that cannot be read is a page fault, which is handled like
    an error. -/
def wkLoop (e : Env) : List (Option WkTerm) → WkGen → WkOut
  | [], g => .ok g
  | none :: _, g => .fail .fault g
  | some t :: ts, g =>
    match wkRound e g t with
    | .ok g => wkLoop e ts g
    | .fail r g => .fail r g
    | .panic => .panic

/-- The end of the last term and of the code. -/
def wkFinish (g : WkGen) : WkOut :=
  if g.overrun then .fail .inval g
  else
    .ofOption <| (g.retu.map WkGen.placeLabel).bind fun g =>
      g.retui.map fun g => { g with bytes := g.bytes + epilogueBytes }

/-- `wk_compile`. -/
def wkCompile (m : Mem) (e : Env) (ts : List (Option WkTerm)) : WkOut :=
  match wkLoop e ts (.init m) with
  | .ok g => wkFinish g
  | out => out

/-! ## 4. `sys_wkpred` -/

/-- `env_pred` and `env_pred_pgs`: the code with the bytes it takes, and the pages. -/
structure WkPred where
  code : List VInst
  bytes : Nat
  pgs : List Nat

/-- The memory, the environments and their predicates; `held` counts the pins of a page that
    belong to something else. -/
structure WkSys where
  mem : Mem
  envs : Fin nenv → Env
  preds : Fin nenv → Option WkPred
  held : Nat → Nat

def unpinAll (m : Mem) (ps : List Nat) : Mem := ps.foldl ppageUnpin m

/-- `wk_free`. -/
def wkFree (s : WkSys) (i : Fin nenv) : WkSys :=
  match s.preds i with
  | none => s
  | some p =>
    { s with mem := unpinAll s.mem p.pgs, preds := Function.update s.preds i none }

/-- `sys_wkpred`; without terms the predicate is removed. Nothing is left if an assertion
    fails. -/
def sysWkpred (s : WkSys) (i : Fin nenv) (ts : Option (List (Option WkTerm))) :
    Option (Except Errno Unit × WkSys) :=
  let s := wkFree s i
  match ts with
  | none => some (.ok (), s)
  | some ts =>
    match kmalloc s.mem with
    | (false, m) => some (.error .noMem, { s with mem := m })
    | (true, m) =>
      match kmalloc m with
      | (false, m) => some (.error .noMem, { s with mem := m })
      | (true, m) =>
        match wkCompile m (s.envs i) ts with
        | .panic => none
        | .fail r g => some (.error r, { s with mem := unpinAll g.mem g.pgs })
        | .ok g =>
          some (.ok (), { s with
              mem := g.mem
              preds := Function.update s.preds i (some ⟨g.code, g.bytes, g.pgs⟩) })

/-! ## 5. The code is run — `sched_runnext` -/

/-- The registers. -/
structure WkRegs where
  r1 : BitVec 32
  r2 : BitVec 32
  tag : BitVec 32

def WkRegs.set (r : WkRegs) (x : WkReg) (v : BitVec 32) : WkRegs :=
  match x with
  | .r1 => { r with r1 := v }
  | .r2 => { r with r2 := v }

/-- The comparison of a term. -/
def WkOp.holds (o : WkOp) (a b : BitVec 32) : Bool :=
  match o with
  | .gt => decide (b < a)
  | .gte => decide (b ≤ a)
  | .lt => decide (a < b)
  | .lte => decide (a ≤ b)
  | .eq => decide (a = b)
  | .neq => decide (a ≠ b)
  | .or | .bogus => true

/-- Run code on the contents of physical memory: what it returns, and the addresses that it
    loads words from. After a branch it goes on behind the last place of the label. -/
def runCode (mem : Store Unit) :
    Option Nat → List VInst → WkRegs → BitVec 32 × List (BitVec 32)
  | _, [], _ => (0, [])
  | some l, i :: is, r =>
    if i = .label l ∧ .label l ∉ is then runCode mem none is r else runCode mem (some l) is r
  | none, .ldui x a :: is, r =>
    let (v, as) := runCode mem none is (r.set x (mem.ld32 () a.toNat))
    (v, a :: as)
  | none, .setu x w :: is, r => runCode mem none is (r.set x w)
  | none, .setTag w :: is, r => runCode mem none is { r with tag := w }
  | none, .branch o l :: is, r =>
    if o.holds r.r1 r.r2 then runCode mem none is r else runCode mem (some l) is r
  | none, .retTag :: _, r => (r.tag, [])
  | none, .label _ :: is, r => runCode mem none is r
  | none, .retZero :: _, _ => (0, [])

/-- A run of a predicate: with `r1` and `r2` in the operand registers it loads from `as` and
    returns `v`. Code that does not fit its buffer continues with whatever comes after it. -/
def WkPred.Runs (p : WkPred) (mem : Store Unit) (r1 r2 v : BitVec 32)
    (as : List (BitVec 32)) : Prop :=
  p.bytes ≤ wkMaxCodeBytes → runCode mem none p.code ⟨r1, r2, -1⟩ = (v, as)

end Exokernel
