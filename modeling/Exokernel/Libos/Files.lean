import Mathlib

/-!
# Open files — `fd/proc.c`, `fd/procaux.c`, `fd/ftable.c`

All processes share one table of files. An entry counts the descriptors and directories that
name it, and it is closed and given back when the count is zero.

**A call is a piece of code, and the pieces of several processes are interleaved.** An
increment is a load and a store. Between `lock_filp` and `unlock_filp` of an entry no other
process is in code of that kind for the same entry; nothing else is excluded. What a process
reads of its own tables only it changes, so its code is made when the call begins.

A failed assertion calls `exit`. An access through a null pointer ends what is modelled of the
process. The operations of a device are an outcome and the count they leave behind. No call
takes a lock that it has, so the depth of a lock is left out.
-/
set_option autoImplicit false

namespace Exokernel.Libos

/-! ## 1. Tables — `fd/proc.h` -/

/-- `NR_OPEN`, `NR_FTABLE` and `NR_RSVRD_FTABLE`. -/
abbrev nrOpen : Nat := 128
abbrev nrFtable : Nat := 256
abbrev nrRsvrdFtable : Nat := 60

/-- A pointer to an entry of the table. -/
abbrev Filp := Fin nrFtable

/-- The places of a process that name a file: `fd`, with the word behind the vector, `cwd` and
    `root`. -/
inductive Slot where
  | fd (i : Fin (nrOpen + 1))
  | cwd
  | root
deriving DecidableEq, Fintype

abbrev Slots := Slot → Option Filp

/-! ## 2. Code -/

/-- What is left of a call. -/
inductive Code where
  | done
  | lockFilp (f : Filp) (k : Code)
  | unlockFilp (f : Filp) (k : Code)
  /-- The two halves of `filp_refcount_inc` and `filp_refcount_dec`. -/
  | load (f : Filp) (k : Code)
  | store (f : Filp) (up : Bool) (k : Code)
  /-- `filp_refcount_init`. -/
  | init (f : Filp) (k : Code)
  /-- `if (filp_refcount_get (filp) == 0)`. -/
  | ifZero (f : Filp) (k₁ k₂ : Code)
  /-- The close operation, or `namei_release` of a directory. -/
  | close (f : Filp) (k : Code)
  | getfilp (k : Option Filp → Code)
  | putfilp (f : Filp) (k : Code)
  | set (s : Slot) (o : Option Filp) (k : Code)
  /-- The socket or accept operation on a new entry, and `namei`: success and failure. -/
  | op (f : Filp) (k₁ k₂ : Code)
  | namei (f : Filp) (k₁ k₂ : Code)
  /-- The rest of `fork1` after `UpdateRefCount`. -/
  | spawn (k₁ k₂ : Code)
  | die
  | wild

/-- `putfd`; its assertion fails for the word behind the vector. -/
def putfd (bad : Code) (i : Fin (nrOpen + 1)) (f : Filp) (k : Code) : Code :=
  if i.val < nrOpen then .ifZero f (.putfilp f (.set (.fd i) none k)) (.set (.fd i) none k)
  else bad

/-- `close`, from `lock_filp` on. -/
def closeCode (bad : Code) (i : Fin (nrOpen + 1)) (f : Filp) (k : Code) : Code :=
  .lockFilp f <| .load f <| .store f false <| .unlockFilp f <|
    .ifZero f (.lockFilp f <| .close f <| .unlockFilp f <| putfd bad i f k) (putfd bad i f k)

/-- A directory is given up. -/
def dropDir (d : Filp) (k : Code) : Code :=
  .lockFilp d <| .load d <| .store d false <|
    .ifZero d (.unlockFilp d <| .close d <| .putfilp d k) (.unlockFilp d k)

/-- The first `n` descriptors. -/
def fdsBelow (n : Nat) (h : n ≤ nrOpen) : List (Fin (nrOpen + 1)) :=
  (List.finRange n).map (Fin.castLE (by omega))

def closeAll (σ : Slots) : List (Fin (nrOpen + 1)) → Code → Code
  | [], k => k
  | i :: is, k =>
    match σ (.fd i) with
    | none => closeAll σ is k
    | some f => closeCode .wild i f (closeAll σ is k)

def dropOpt (o : Option Filp) (k : Code) : Code :=
  match o with
  | none => k
  | some d => dropDir d k

/-- The descriptors in the order in which a process that ends closes them. -/
def endFds : List (Fin (nrOpen + 1)) := (fdsBelow nrOpen (le_refl _)).drop 3 ++ [0, 1, 2]

/-- `FDEndProcess`; `cwd_isfd` is never set. -/
def fdEndProcess (σ : Slots) : Code :=
  dropOpt (σ .cwd) <| dropOpt (σ .root) <| closeAll σ endFds .die

/-! ## 3. The calls -/

/-- `CHECKFD`. -/
def checkfd (σ : Slots) (fd : Int) : Option (Fin (nrOpen + 1) × Filp) :=
  if fd < 0 ∨ (nrOpen : Int) < fd then none
  else
    let i := Fin.ofNat (nrOpen + 1) fd.toNat
    (σ (.fd i)).map fun f => (i, f)

/-- The first free descriptor from `n` on. -/
def freeFd (σ : Slots) (n : Nat) : Option (Fin (nrOpen + 1)) :=
  (fdsBelow nrOpen (le_refl _)).find? fun i => n ≤ i.val ∧ σ (.fd i) = none

/-- `getfd` and an operation that makes a file of the new entry. -/
def newFd (σ : Slots) : Code :=
  match freeFd σ 0 with
  | none => .done
  | some i => .getfilp fun
    | none => .set (.fd i) none .done
    | some f => .set (.fd i) (some f) <| .init f <|
      .op f (.init f <| .load f <| .store f true .done) (putfd (fdEndProcess σ) i f .done)

/-- `dup3`. -/
def dup3 (σ : Slots) (fd1 fd2 : Int) : Code :=
  match checkfd σ fd1 with
  | none => .done
  | some (_, f) =>
    if fd2 < 0 ∨ (nrOpen : Int) < fd2 then .done
    else
      match freeFd σ fd2.toNat with
      | none => .done
      | some i => .load f <| .store f true <| .set (.fd i) (some f) .done

/-- `dup2`. -/
def dup2 (σ : Slots) (fd1 fd2 : Int) : Code :=
  match checkfd σ fd1 with
  | none => .done
  | some (_, f) =>
    if fd2 < 0 ∨ (nrOpen : Int) < fd2 then .done
    else if fd1 = fd2 then .done
    else
      let i := Fin.ofNat (nrOpen + 1) fd2.toNat
      let k := Code.set (.fd i) (some f) <| .load f <| .store f true .done
      match σ (.fd i) with
      | none => k
      | some g => closeCode (fdEndProcess σ) i g k

/-- `chdir`, `fchdir` and `chroot` from `getfilp` on; `bad` is what happens if there is no
    entry. -/
def changeDir (σ : Slots) (s : Slot) (bad : Code) : Code :=
  .getfilp fun
    | none => bad
    | some f =>
      .namei f
        (match σ s with
          | none => fdEndProcess σ
          | some d => dropDir d <| .init f <| .load f <| .store f true <| .set s (some f) .done)
        (.putfilp f .done)

/-- The loop of `UpdateRefCount`. -/
def countAll (σ : Slots) : List (Fin (nrOpen + 1)) → Code → Code
  | [], k => k
  | i :: is, k =>
    match σ (.fd i) with
    | none => countAll σ is k
    | some f => .lockFilp f <| .load f <| .store f true <| .unlockFilp f <| countAll σ is k

def countOpt (o : Option Filp) (k : Code) : Code :=
  match o with
  | none => k
  | some d => .load d <| .store d true k

/-- `UpdateRefCount`. -/
def updateRefCount (σ : Slots) (k : Code) : Code :=
  countAll σ (fdsBelow nrOpen (le_refl _)) <| countOpt (σ .cwd) <| countOpt (σ .root) k

/-- A call with its arguments. `able` says that the file has the operation, `empty` that the
    path is empty, and `dir` that the file is a directory. -/
inductive Call where
  | socket
  | accept (fd : Int) (able : Bool)
  | dup (fd : Int)
  | dup2 (fd1 fd2 : Int)
  | dupfd (fd arg : Int)
  | close (fd : Int)
  | chdir (empty : Bool)
  | fchdir (fd : Int) (dir : Bool)
  | chroot (empty : Bool)
  | fork
  | exit

/-- The code of a call. -/
def Call.code (σ : Slots) : Call → Code
  | .socket => newFd σ
  | .accept fd able =>
    match checkfd σ fd with
    | none => .done
    | some _ => if able then newFd σ else .done
  | .dup fd => dup3 σ fd 0
  | .dup2 fd1 fd2 => Libos.dup2 σ fd1 fd2
  | .dupfd fd arg =>
    match checkfd σ fd with
    | none => .done
    | some _ => dup3 σ fd arg
  | .close fd =>
    match checkfd σ fd with
    | none => .done
    | some (i, f) => closeCode (fdEndProcess σ) i f .done
  | .chdir empty => if empty then .done else changeDir σ .cwd (fdEndProcess σ)
  | .fchdir fd dir =>
    match checkfd σ fd with
    | none => .wild
    | some _ => if dir then changeDir σ .cwd (fdEndProcess σ) else .done
  | .chroot empty => if empty then .done else changeDir σ .root .wild
  | .fork => updateRefCount σ (.spawn .done .done)
  | .exit => fdEndProcess σ

/-! ## 4. Interleaved steps -/

/-- An entry of the table with its bit in `inuse`. Since it was given out its count has been
    decremented to zero `zeros` times, and it has been closed `closes` times. -/
structure Entry (π : Type) where
  inuse : Bool
  ffCount : BitVec 16
  lock : Option π
  zeros : Nat
  closes : Nat

/-- A process: what it has loaded is in `reg`. -/
structure Proc where
  live : Bool
  isRoot : Bool
  slots : Slots
  code : Code
  reg : BitVec 16

structure Files (π : Type) where
  file : Filp → Entry π
  procs : π → Proc

variable {π : Type} [DecidableEq π]

namespace Files

def setFile (s : Files π) (f : Filp) (e : Entry π) : Files π :=
  { s with file := Function.update s.file f e }

def setProc (s : Files π) (p : π) (q : Proc) : Files π :=
  { s with procs := Function.update s.procs p q }

def goto (s : Files π) (p : π) (k : Code) : Files π :=
  s.setProc p { s.procs p with code := k }

/-- `getfilp` finds the first free entry; the last ones are for the super-user. -/
def firstFree (s : Files π) (isRoot : Bool) : Option Filp :=
  (List.finRange nrFtable).find? fun f =>
    f.val < (if isRoot then nrFtable else nrFtable - nrRsvrdFtable) ∧ (s.file f).inuse = false

end Files

/-- What is decided elsewhere: whether an operation succeeds, the count it leaves behind, and
    which process a fork makes. -/
structure Choice (π : Type) where
  ok : Bool
  count : BitVec 16
  child : π

/-- **One step** of a process. -/
def Files.step (s : Files π) (p : π) (ch : Choice π) : Option (Files π) :=
  let q := s.procs p
  if q.live = false then none
  else
    match q.code with
    | .done | .wild => none
    | .lockFilp f k =>
      if (s.file f).lock = none then
        some ((s.setFile f { s.file f with lock := some p }).goto p k)
      else none
    | .unlockFilp f k =>
      if (s.file f).lock = some p then
        some ((s.setFile f { s.file f with lock := none }).goto p k)
      else some (s.goto p (fdEndProcess q.slots))
    | .load f k => some (s.setProc p { q with code := k, reg := (s.file f).ffCount })
    | .store f up k =>
      let c := if up then q.reg + 1 else q.reg - 1
      let e := s.file f
      some ((s.setFile f
        { e with ffCount := c, zeros := e.zeros + if !up ∧ c = 0 then 1 else 0 }).goto p k)
    | .init f k => some ((s.setFile f { s.file f with ffCount := 0 }).goto p k)
    | .ifZero f k₁ k₂ => some (s.goto p (if (s.file f).ffCount = 0 then k₁ else k₂))
    | .close f k =>
      some ((s.setFile f { s.file f with closes := (s.file f).closes + 1 }).goto p k)
    | .getfilp k =>
      match s.firstFree q.isRoot with
      | none => some (s.goto p (k none))
      | some f => some ((s.setFile f ⟨true, 11711, none, 0, 0⟩).goto p (k (some f)))
    | .putfilp f k => some ((s.setFile f { s.file f with inuse := false }).goto p k)
    | .set a o k => some (s.setProc p { q with code := k, slots := Function.update q.slots a o })
    | .op f k₁ k₂ | .namei f k₁ k₂ =>
      some ((s.setFile f { s.file f with ffCount := ch.count }).goto p (if ch.ok then k₁ else k₂))
    | .spawn k₁ k₂ =>
      if ch.ok then
        if (s.procs ch.child).live then none
        else some ((s.setProc ch.child { q with code := .done }).goto p k₁)
      else some (s.goto p k₂)
    | .die =>
      some (s.setProc p { q with live := false, slots := fun _ => none, code := .done })

/-- A process makes a call, or one step of it. -/
inductive Act (π : Type) where
  | call (p : π) (c : Call)
  | step (p : π) (ch : Choice π)

def Files.exec (s : Files π) : Act π → Option (Files π)
  | .call p c =>
    match (s.procs p).live, (s.procs p).code with
    | true, .done => some (s.goto p (c.code (s.procs p).slots))
    | _, _ => none
  | .step p ch => s.step p ch

/-! ## 5. References -/

/-- The word behind the vector is no descriptor. -/
def Slot.isRef : Slot → Bool
  | .fd i => i.val < nrOpen
  | .cwd | .root => true

/-- How often the places of a process name an entry. -/
def Slots.count (σ : Slots) (f : Filp) : Nat := ∑ a, if a.isRef ∧ σ a = some f then 1 else 0

/-- The references to an entry in live processes. -/
def Files.refs [Fintype π] (s : Files π) (f : Filp) : Nat :=
  ∑ p, if (s.procs p).live then (s.procs p).slots.count f else 0

end Exokernel.Libos
