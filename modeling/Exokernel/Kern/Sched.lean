import Exokernel.Kern.EnvCalls

/-!
# The scheduler — `kern/sched.c`, `fastyield` of `kern/ipc.c`

Time is handed out in quanta. Every processor has a vector of them, walked round and
round by `sched_runnext`; a quantum belongs to an environment and holds the timer
ticks it has left.

**A quantum is not the environment that runs on it.** A yield can name the
environment to run next, and that one then runs on the yielder's quantum, whatever is
left of it. `sched_intr` charges the current quantum without asking who runs.

The ways a call can go wrong here are pointers that nobody checked, so a call that
follows a null pointer has no result (`none`). The same answer stands for a walk
round the vector that would not end. What user code does to its own `Uenv` between two
calls is an operation like any other.

Left out: the accounting of ticks that nobody reads back, kernel timeouts, and the
trap frame. The processors the machine has are given; the default build has one, and
the locking of the multiprocessor build is not modelled.
-/
set_option autoImplicit false

namespace Exokernel

/-! ## 1. Quanta — `xok/scheduler.h`, `xok/cpu.h` -/

/-- `NQUANTUM`, `QMAP_SIZE` and `NR_CPUS`. -/
abbrev nquantum : Nat := 128
abbrev qmapSize : Nat := 16
abbrev nrCpus : Nat := 16

instance : NeZero nquantum := ⟨by decide⟩
instance : NeZero nrCpus := ⟨by decide⟩

/-- `BASE_TICKS`, `TICKS_MASK` and `MAX_QX`. -/
def baseTicks : BitVec 32 := 8
def ticksMask : BitVec 32 := 0xf
def maxQx : BitVec 32 := 330

/-- `q_u`: a free quantum's link and a used quantum's capability share their place. -/
inductive QuantumU where
  | link
  | cap (c : Cap)

/-- `struct Quantum`. Its `q_no` is its place in the vector. -/
structure Quantum where
  envid : BitVec 32
  ticks : BitVec 32
  used : Bool
  u : QuantumU

/-- The scheduler's part of `struct CPUContext`. -/
structure CpuContext where
  curenv : Option (Fin nenv)
  inRevocation : Bool
  idleEnv : Fin nenv
  curq : Fin nquantum
  qvec : Fin nquantum → Quantum
  qfreelist : List (Fin nquantum)

/-- `env_quanta[cpu]`: a bit for every quantum. -/
abbrev QuantaMap : Type := Fin qmapSize → BitVec 8

namespace QuantaMap

/-- The byte that has quantum `q`'s bit, and the bit's place in it. -/
def index (q : Fin nquantum) : Fin qmapSize :=
  ⟨q.val / 8, Nat.div_lt_of_lt_mul q.isLt⟩
def offset (q : Fin nquantum) : Nat := q.val % 8

def get (m : QuantaMap) (q : Fin nquantum) : Bool := (m (index q)).getLsbD (offset q)

/-- `env_quanta[cpu][index] |= (1 << offset)`. -/
def set (m : QuantaMap) (q : Fin nquantum) : QuantaMap :=
  Function.update m (index q) (m (index q) ||| 1#8 <<< offset q)

/-- `env_quanta[cpu][index] &= ~(1 << offset)`. -/
def clear (m : QuantaMap) (q : Fin nquantum) : QuantaMap :=
  Function.update m (index q) (m (index q) &&& ~~~(1#8 <<< offset q))

end QuantaMap

/-- The scheduler's part of `struct Uenv`. -/
structure Uarea where
  status : BitVec 32
  donate : BitVec 32
  entepilogue : BitVec 32

/-- `U_SLEEP`. -/
def uSleep : BitVec 32 := 0

/-! ## 2. The state -/

/-- The kernel together with what the scheduler adds to it. `quanta` and `qx` are
    fields of `struct Env`, `uarea` is behind `env_u`. A processor that is not
    `present` has no context. -/
structure Sched where
  kern : Kernel
  quanta : Fin nenv → Fin nrCpus → QuantaMap
  qx : Fin nenv → BitVec 32
  uarea : Fin nenv → Uarea
  present : Fin nrCpus → Bool
  cpus : Fin nrCpus → CpuContext
  shouldReschedule : BitVec 32

namespace Sched

/-- Rewrite one processor's context. -/
def modCpu (s : Sched) (c : Fin nrCpus) (f : CpuContext → CpuContext) : Sched :=
  { s with cpus := Function.update s.cpus c (f (s.cpus c)) }

theorem modCpu_cpus (s : Sched) (c c' : Fin nrCpus) (f : CpuContext → CpuContext) :
    (s.modCpu c f).cpus c' = if c' = c then f (s.cpus c') else s.cpus c' := by
  by_cases hc : c' = c
  · subst hc; simp [modCpu]
  · simp [modCpu, hc]

/-- Rewrite one quantum. -/
def modQ (s : Sched) (c : Fin nrCpus) (q : Fin nquantum) (f : Quantum → Quantum) : Sched :=
  s.modCpu c fun cx => { cx with qvec := Function.update cx.qvec q (f (cx.qvec q)) }

/-- Rewrite an environment's map of its quanta on one processor. -/
def modQuanta (s : Sched) (i : Fin nenv) (c : Fin nrCpus) (f : QuantaMap → QuantaMap) : Sched :=
  { s with
    quanta := Function.update s.quanta i (Function.update (s.quanta i) c (f (s.quanta i c))) }

/-- Rewrite the user-writable record of one environment. -/
def modUarea (s : Sched) (i : Fin nenv) (f : Uarea → Uarea) : Sched :=
  { s with uarea := Function.update s.uarea i (f (s.uarea i)) }

/-- `env_run`. -/
def envRun (s : Sched) (c : Fin nrCpus) (i : Fin nenv) : Sched :=
  s.modCpu c ({ · with curenv := some i })

/-- `__cpucxts[cpu]`, if that is a context at all: the index is not checked. -/
def cpucxt (s : Sched) (cpu : BitVec 32) : Option (Fin nrCpus) :=
  if h : cpu.toNat < nrCpus then if s.present ⟨cpu.toNat, h⟩ then some ⟨cpu.toNat, h⟩ else none
  else none

end Sched

/-! ## 3. Allocating and freeing quanta -/

/-- `quantum_unfree`. The pointer is tested only after `q_used` has been read through
    it. -/
def quantumUnfree (s : Sched) (c : Fin nrCpus) (qp : Option (Fin nquantum)) :
    Option (Option (Fin nquantum) × Sched) :=
  match qp with
  | none => none
  | some q =>
    if ((s.cpus c).qvec q).used then some (none, s)
    else
      match ((s.cpus c).qvec q).u with
      -- `LIST_REMOVE` would follow a capability
      | .cap _ => none
      | .link =>
        some (some q, (s.modCpu c fun cx => { cx with qfreelist := cx.qfreelist.erase q }).modQ c q
            ({ · with used := true }))

/-- `quantum_free`. -/
def quantumFree (s : Sched) (c : Fin nrCpus) (q : Fin nquantum) : Sched :=
  if ((s.cpus c).qvec q).used then
    (s.modQ c q fun _ => ⟨0, 0, false, .link⟩).modCpu c fun cx =>
      { cx with qfreelist := q :: cx.qfreelist }
  else s

/-- Which of its three names `sys_quantum_set` was called by. -/
inductive QuantumSn where
  | alloc | set | free
deriving DecidableEq

/-- `sys_quantum_set` for a new quantum: the branch that takes one. -/
def quantumTake (s : Sched) (c : Fin nrCpus) (q : BitVec 32) (cp : Cap) :
    Option (Except Errno (Fin nquantum) × Sched) :=
  let qp : Except Errno (Option (Fin nquantum)) :=
    if q = -1 then .ok (s.cpus c).qfreelist.head?
    else if h : q.toNat < nquantum then .ok (some ⟨q.toNat, h⟩)
    else .error .inval
  match qp with
  | .error r => some (.error r, s)
  | .ok qp =>
    match quantumUnfree s c qp with
    | none => none
    | some (none, s) => some (.error .inval, s)
    | some (some q, s) =>
      some (.ok q, s.modQ c q ({ · with u := .cap cp, ticks := baseTicks }))

/-- `sys_quantum_set` for a quantum that exists: the branch that checks the access. -/
def quantumCheck (s : Sched) (c : Fin nrCpus) (q : BitVec 32) (cp : Cap) :
    Option (Except Errno (Fin nquantum)) :=
  if h : q.toNat < nquantum then
    let qt := (s.cpus c).qvec ⟨q.toNat, h⟩
    if qt.used then
      match qt.u with
      | .link => none
      | .cap c₁ =>
        match aclAccess cp [.ofCap c₁] aclAll with
        | .error r => some (.error r)
        | .ok () => some (.ok ⟨q.toNat, h⟩)
    else some (.error .inval)
  else some (.error .inval)

/-- `sys_quantum_set` for an environment `e` that may be null. -/
def quantumAssign (s : Sched) (c : Fin nrCpus) (q : Fin nquantum) (e : Option (Fin nenv)) :
    Option Sched :=
  e.map fun i =>
    (s.modQuanta i c (·.set q)).modQ c q ({ · with envid := (s.kern.envs i).id })

/-- The owner of a quantum is looked up again and used without a check. -/
def quantumDisown (s : Sched) (c : Fin nrCpus) (q : Fin nquantum) : Option Sched :=
  match envId2env s.kern ((s.cpus c).qvec q).envid with
  | .error _ => none
  | .ok i => some (s.modQuanta i c (·.clear q))

/-- `sys_quantum_alloc`, `sys_quantum_set` and `sys_quantum_free`, called by
    environment `cur`. -/
def sysQuantumSet (s : Sched) (cur : Fin nenv) (sn : QuantumSn) (k q cpu envid : BitVec 32) :
    Option (Except Errno (Fin nquantum) × Sched) :=
  let e : Except Errno (Option (Fin nenv)) :=
    if sn ≠ .free ∧ envid ≠ 0 then (envId2env s.kern envid).map some else .ok none
  match e with
  | .error r => some (.error r, s)
  | .ok e =>
    match envGetcap (s.kern.envs cur) k with
    | .error r => some (.error r, s)
    | .ok cp =>
      if cp.1.perm ≠ clAll then some (.error .capInsuff, s)
      else
        match s.cpucxt cpu with
        | none => none
        | some c =>
          match sn with
          | .alloc =>
            match quantumTake s c q cp.1 with
            | none => none
            | some (.error r, s) => some (.error r, s)
            | some (.ok q, s) => (quantumAssign s c q e).map fun s => (.ok q, s)
          | .set =>
            match quantumCheck s c q cp.1 with
            | none => none
            | some (.error r) => some (.error r, s)
            | some (.ok q) =>
              (quantumDisown s c q).bind fun s => (quantumAssign s c q e).map fun s => (.ok q, s)
          | .free =>
            match quantumCheck s c q cp.1 with
            | none => none
            | some (.error r) => some (.error r, s)
            | some (.ok q) => (quantumDisown s c q).map fun s => (.ok q, quantumFree s c q)

/-! ## 4. Walking the vector -/

/-- `more_ticks`. -/
def moreTicks (s : Sched) (c : Fin nrCpus) : Sched :=
  s.modCpu c fun cx =>
    { cx with
      qvec := fun q =>
        let qt := cx.qvec q
        if qt.used then
          { qt with
            ticks := if ticksMask < qt.ticks + baseTicks then ticksMask else qt.ticks + baseTicks }
        else qt }

/-- `curq = (curq + 1) & QUANTUM_MASK`, and a new round when that is 0. -/
def nextQuantum (s : Sched) (c : Fin nrCpus) : Sched :=
  if (s.cpus c).curq + 1 = 0 then (moreTicks s c).modCpu c ({ · with curq := 1 })
  else s.modCpu c fun cx => { cx with curq := cx.curq + 1 }

/-- From `yield_cont` on: whether environment `i`, meant by `envid`, is run. `wake` is
    what its predicate says, 0 if it has none. -/
def visitEnv (s : Sched) (c : Fin nrCpus) (i : Fin nenv) (envid wake : BitVec 32) :
    Bool × Sched :=
  let e := s.kern.envs i
  if e.u.isSome ∧ e.status = .ok ∧ e.id = envid then
    let s :=
      if (s.uarea i).status = uSleep ∧ wake ≠ 0 then
        s.modUarea i fun u => { u with status := u.status + 1 }
      else s
    if uSleep.slt (s.uarea i).status then (true, s.envRun c i) else (false, s)
  else (false, s)

/-- The body of `sched_runnext`'s loop, for the current quantum. -/
def visitQuantum (s : Sched) (c : Fin nrCpus) (wake : Fin nenv → BitVec 32) : Bool × Sched :=
  let q := (s.cpus c).qvec (s.cpus c).curq
  if q.used ∧ q.envid ≠ 0 ∧ q.ticks ≠ 0 then
    match envId2env s.kern q.envid with
    | .ok i => visitEnv s c i q.envid (wake i)
    -- the environment is a bad one, remove it
    | .error _ => (false, quantumFree s c (s.cpus c).curq)
  else (false, s)

/-- The loop, which ends at the quantum it started from at the latest. -/
def runLoop (c : Fin nrCpus) (icq : Fin nquantum) (wake : Nat → Fin nenv → BitVec 32) :
    Nat → Sched → Option Sched
  | 0, _ => none
  | left + 1, s =>
    match visitQuantum s c (wake left) with
    | (true, s) => some s
    | (false, s) =>
      if (s.cpus c).curq = icq then some (s.envRun c (s.cpus c).idleEnv)
      else runLoop c icq wake left (nextQuantum s c)

/-- The start of `sched_runnext`: the environment to yield to, if one is named. -/
def takeDonation (s : Sched) (c : Fin nrCpus) : BitVec 32 × Sched :=
  match (s.cpus c).curenv with
  | none => (-1, { s with shouldReschedule := 0 })
  | some i =>
    let envid := if s.shouldReschedule ≠ 0 then s.shouldReschedule else (s.uarea i).donate
    (envid, { s.modUarea i ({ · with donate := -1 }) with shouldReschedule := 0 })

/-- `sched_runnext`. `wake n i` is what environment `i`'s predicate says when the loop
    has `n` rounds left. -/
def schedRunnext (s : Sched) (c : Fin nrCpus) (wake : Nat → Fin nenv → BitVec 32) :
    Option Sched :=
  let icq := (s.cpus c).curq
  let (envid, s) := takeDonation (s.modCpu c ({ · with inRevocation := false })) c
  let (ran, s) :=
    if envid = -1 then (false, s)
    else
      match envId2env s.kern envid with
      | .error _ => (false, s)
      | .ok i => visitEnv s c i envid (wake nquantum i)
  if ran then some s else runLoop c icq wake nquantum (nextQuantum s c)

/-- `yields`. -/
def yields (s : Sched) (c : Fin nrCpus) (i : Fin nenv) (wake : Nat → Fin nenv → BitVec 32) :
    Option Sched :=
  schedRunnext
    (s.modUarea i fun u =>
      { u with status := if (u.status - 1).slt uSleep then uSleep else u.status - 1 })
    c wake

/-- `fastyield`, called by environment `cur`. It stays in a revocation. -/
def fastyield (s : Sched) (c : Fin nrCpus) (cur : Fin nenv)
    (wake : Nat → Fin nenv → BitVec 32) : Option Sched :=
  let envid := (s.uarea cur).donate
  let s := s.modUarea cur ({ · with donate := -1 })
  match envId2env s.kern envid with
  | .error _ => schedRunnext s c wake
  | .ok i =>
    if i ≠ cur ∧ (s.kern.envs i).status ≠ .ok then schedRunnext s c wake
    else some (s.envRun c i)

/-! ## 5. The timer -/

/-- `revoke_processor`, with environment `cur` running. -/
def revokeProcessor (s : Sched) (c : Fin nrCpus) (cur : Fin nenv)
    (wake : Nat → Fin nenv → BitVec 32) : Option Sched :=
  if (s.uarea cur).entepilogue ≠ 0 then
    some { s.modCpu c ({ · with inRevocation := true }) with qx := Function.update s.qx cur 0 }
  else schedRunnext s c wake

/-- The tick that `sched_intr` takes from the current quantum leaves it with none. The
    counter is unsigned, so `<= 0` is a test for zero. -/
def Sched.expires (s : Sched) (c : Fin nrCpus) : Prop :=
  ((s.cpus c).qvec (s.cpus c).curq).ticks - 1 ≤ 0

instance (s : Sched) (c : Fin nrCpus) : Decidable (s.expires c) := by
  unfold Sched.expires; infer_instance

/-- `sched_intr`. -/
def schedIntr (s : Sched) (c : Fin nrCpus) (wake : Nat → Fin nenv → BitVec 32) : Option Sched :=
  match (s.cpus c).curenv with
  | none => none
  | some cur =>
    if (s.cpus c).inRevocation then
      if s.qx cur = maxQx then
        (envFree s.kern cur).bind fun k =>
          schedRunnext
            ({ s with kern := k }.modCpu c ({ · with inRevocation := false, curenv := none }))
            c wake
      else some { s with qx := Function.update s.qx cur (s.qx cur + 1) }
    else if s.expires c then
      revokeProcessor (s.modQ c (s.cpus c).curq ({ · with ticks := 0 })) c cur wake
    else some (s.modQ c (s.cpus c).curq fun q => { q with ticks := q.ticks - 1 })

/-! ## 6. Environments come and go -/

/-- The environment that `sys_env_alloc` clears, if it gets that far. -/
def envAllocSlot (k : Kernel) (cur : Fin nenv) (kcap : BitVec 32) : Option (Fin nenv) :=
  match envGetcap (k.envs cur) kcap with
  | .error _ => none
  | .ok cp => if cp.1.perm &&& clAll ≠ clAll then none else k.envFreeList.head?

/-- The id an environment created now would get in place `i`. -/
def Kernel.newEnvId (k : Kernel) (i : Fin nenv) : BitVec 32 :=
  k.nextEnvId <<< 11 ||| BitVec.ofNat 32 i.val

/-- `sys_env_alloc` and `sys_env_clone`, with the `bzero` of the whole of `struct Env`.
    `ua` is what the new environment's record happens to hold. -/
def Sched.sysEnvAlloc (s : Sched) (cur : Fin nenv) (clone : Bool) (kcap : BitVec 32)
    (junk : Uenv) (ua : Uarea) : Option Sched :=
  (Exokernel.sysEnvAlloc s.kern cur clone kcap junk).map fun (_, k) =>
    match envAllocSlot s.kern cur kcap with
    | none => { s with kern := k }
    | some i =>
      { s with
        kern := k
        quanta := Function.update s.quanta i fun _ _ => 0
        qx := Function.update s.qx i 0
        uarea := Function.update s.uarea i ua }

/-- `sys_env_free`, whose `kill_env` schedules if the caller killed itself. -/
def Sched.sysEnvFree (s : Sched) (c : Fin nrCpus) (cur : Fin nenv) (kcap envid : BitVec 32)
    (wake : Nat → Fin nenv → BitVec 32) : Option Sched :=
  (Exokernel.sysEnvFree s.kern cur kcap envid).bind fun (r, k) =>
    if r = .ok ∧ envidx envid = cur then
      schedRunnext ({ s with kern := k }.modCpu c ({ · with curenv := none })) c wake
    else some { s with kern := k }

/-! ## 7. Everything that can happen -/

/-- What can happen next on a processor. -/
inductive SchedOp where
  | quantum (sn : QuantumSn) (k q cpu envid : BitVec 32)
  | envAlloc (clone : Bool) (kcap : BitVec 32) (junk : Uenv) (ua : Uarea)
  | envFree (kcap envid : BitVec 32) (wake : Nat → Fin nenv → BitVec 32)
  | yield (wake : Nat → Fin nenv → BitVec 32)
  | yields (wake : Nat → Fin nenv → BitVec 32)
  | fastyield (wake : Nat → Fin nenv → BitVec 32)
  | intr (wake : Nat → Fin nenv → BitVec 32)
  /-- The running environment writes its own record. -/
  | store (ua : Uarea)
  /-- A disk request is done and its environment should run (`kern/bc.c`). -/
  | reschedule (envid : BitVec 32)

/-- Do it. User code runs as some environment; without one there is no call. -/
def SchedOp.exec (s : Sched) (c : Fin nrCpus) (op : SchedOp) : Option Sched :=
  (s.cpus c).curenv.bind fun cur =>
    match op with
    | quantum sn k q cpu envid => (sysQuantumSet s cur sn k q cpu envid).map (·.2)
    | envAlloc clone kcap junk ua => s.sysEnvAlloc cur clone kcap junk ua
    | envFree kcap envid wake => s.sysEnvFree c cur kcap envid wake
    | yield wake => schedRunnext s c wake
    | yields wake => Exokernel.yields s c cur wake
    | fastyield wake => Exokernel.fastyield s c cur wake
    | intr wake => schedIntr s c wake
    | store ua => some (s.modUarea cur fun _ => ua)
    | reschedule envid =>
      some (if s.shouldReschedule = 0 then { s with shouldReschedule := envid } else s)

/-! ## 8. Boot -/

/-- `sched_init`. -/
def CpuContext.init (idle : Fin nenv) : CpuContext where
  curenv := some idle
  inRevocation := false
  idleEnv := idle
  curq := 1
  qvec := fun _ => ⟨0, 0, false, .link⟩
  qfreelist := (List.finRange nquantum).reverse

/-- The scheduler as boot leaves it: nobody owns a quantum. -/
def schedInit (k : Kernel) (present : Fin nrCpus → Bool) (uarea : Fin nenv → Uarea) : Sched where
  kern := k
  quanta := fun _ _ _ => 0
  qx := fun _ => 0
  uarea := uarea
  present := present
  cpus := fun _ => CpuContext.init 0
  shouldReschedule := 0

end Exokernel
