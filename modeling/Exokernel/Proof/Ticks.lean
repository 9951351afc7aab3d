import Exokernel.Proof.Quanta

/-!
# Time slices — how many ticks a quantum can have

`more_ticks` caps what a quantum can save up at `TICKS_MASK`, and `sched_intr` takes
one tick at a time and revokes the processor when none is left.

**The counter is unsigned, and a quantum can be current with nothing on it.** The
scheduler itself passes over empty quanta. But an environment in its epilogue can
yield to another one, which then runs on the empty quantum outside a revocation; the
idle environment runs on whatever quantum the walk ended at; and freeing the current
quantum empties it. The next tick wraps the counter, and `<= 0` does not notice. So
the bound holds for the runs in which every tick outside a revocation finds something
to take (`InTime`), and `TicksOk.intr_iff` says that this is exactly what it needs.
-/
set_option autoImplicit false

namespace Exokernel

open Option BitVec

/-! ## 1. The bound -/

/-- No quantum has more than `TICKS_MASK` ticks. -/
def TicksOk (s : Sched) : Prop := ∀ c q, ((s.cpus c).qvec q).ticks ≤ ticksMask

/-- The ticks left on the current quantum. -/
def Sched.left (s : Sched) (c : Fin nrCpus) : BitVec 32 :=
  ((s.cpus c).qvec (s.cpus c).curq).ticks

/-- A tick finds something to take, or it is the epilogue's. -/
def SchedOp.InTime (s : Sched) (c : Fin nrCpus) : SchedOp → Prop
  | .intr _ => (s.cpus c).inRevocation = true ∨ 0 < s.left c
  | _ => True

theorem toNat_pred {n : BitVec 32} (h : 0 < n) : (n - 1).toNat + 1 = n.toNat := by
  have hpos : 0 < n.toNat := by simpa [lt_def] using h
  have hone : (1 : BitVec 32).toNat = 1 := rfl
  rw [toNat_sub_of_le (by rw [le_def, hone]; omega), hone]
  omega

namespace TicksOk

variable {s t : Sched} {c : Fin nrCpus} {wake : Nat → Fin nenv → BitVec 32}

theorem put (h : TicksOk s) {q : Fin nquantum} {qt : Quantum} (hqt : qt.ticks ≤ ticksMask)
    (l : List (Fin nquantum)) (maps : Fin nenv → Fin nrCpus → QuantaMap) :
    TicksOk (s.put c q qt l maps) := by
  intro c' q'
  rw [Sched.put, Sched.modCpu_cpus]
  split
  · by_cases hq : q' = q
    · subst hq; simpa using hqt
    · simpa [hq] using h c' q'
  · exact h c' q'

theorem setTicks (h : TicksOk s) {q : Fin nquantum} {f : BitVec 32 → BitVec 32}
    (hf : f ((s.cpus c).qvec q).ticks ≤ ticksMask) :
    TicksOk (s.modQ c q fun qt => { qt with ticks := f qt.ticks }) := by
  intro c' q'
  rw [Sched.modQ, Sched.modCpu_cpus]
  split
  · rename_i hc
    subst hc
    by_cases hq : q' = q
    · subst hq; simpa using hf
    · simpa [hq] using h c' q'
  · exact h c' q'

theorem moreTicks (h : TicksOk s) : TicksOk (moreTicks s c) := by
  intro c' q'
  rw [Exokernel.moreTicks, Sched.modCpu_cpus]
  split
  · dsimp only
    split
    · split
      · exact BitVec.le_refl _
      · rename_i hle
        exact BitVec.not_lt.mp hle
    · exact h c' q'
  · exact h c' q'

theorem schedInv : SchedInv TicksOk where
  frame hf h c q := by rw [hf.qvec]; exact h c q
  next c h := by
    unfold nextQuantum
    split
    · have hmore := h.moreTicks (c := c)
      intro c' q
      rw [Sched.modCpu_cpus]
      split <;> exact hmore c' q
    · intro c' q
      rw [Sched.modCpu_cpus]
      split <;> exact h c' q
  collect {s} c q _ _ h := by
    cases hused : ((s.cpus c).qvec q).used with
    | false => simpa [quantumFree, hused] using h
    | true =>
      rw [quantumFree_eq hused]
      exact h.put (by decide) _ _
  kill _ _ h := h

theorem sysQuantumSet (h : TicksOk s) {cur : Fin nenv} {sn : QuantumSn}
    {k qa cpu envid : BitVec 32} {r : Except Errno (Fin nquantum)}
    (hcall : sysQuantumSet s cur sn k qa cpu envid = some (r, t)) : TicksOk t := by
  rcases (sysQuantumSet_gives ..).some hcall with rfl | ⟨c, q, ⟨-, i, cp, -, rfl⟩ |
    ⟨-, j, -, ⟨i, -, rfl⟩ | rfl⟩⟩
  · exact h
  · refine h.put ?_ _ _
    change baseTicks ≤ ticksMask
    decide
  · refine h.put ?_ _ _
    exact h c q
  · exact h.put (by decide) _ _

/-- What the interrupt does to the counters outside a revocation, when it returns. -/
theorem intr_tick (h : TicksOk s) (hrev : (s.cpus c).inRevocation = false)
    (hcall : schedIntr s c wake = some t) :
    (0 < s.left c → TicksOk t) ∧ (s.left c = 0 → ¬ TicksOk t) := by
  unfold schedIntr at hcall
  split at hcall
  · cases hcall
  rw [hrev] at hcall
  simp only [Bool.false_eq_true, if_false] at hcall
  split at hcall
  · rename_i hexp
    refine ⟨fun _ => ?_, fun hzero => ?_⟩
    · exact schedInv.revokeProcessor (h.setTicks (f := fun _ => 0) (by decide)) hcall
    -- zero less one is far from zero
    have hle : s.left c - 1 ≤ 0 := hexp
    rw [hzero] at hle
    exact absurd hle (by decide)
  · cases hcall
    refine ⟨fun hpos => h.setTicks (f := fun n => n - 1) ?_, fun hzero hok => ?_⟩
    · have hmask := h c (s.cpus c).curq
      change s.left c - 1 ≤ ticksMask
      change s.left c ≤ ticksMask at hmask
      have hpred := toNat_pred hpos
      rw [le_def] at hmask ⊢
      omega
    · have hwrap := hok c (s.cpus c).curq
      rw [Sched.modQ, Sched.modCpu_cpus, if_pos rfl] at hwrap
      have hwrap' : s.left c - 1 ≤ ticksMask := by simpa [Sched.left] using hwrap
      rw [hzero] at hwrap'
      exact absurd hwrap' (by decide)

theorem schedIntr (h : TicksOk s) (hok : (SchedOp.intr wake).InTime s c)
    (hcall : schedIntr s c wake = some t) : TicksOk t := by
  cases hrev : (s.cpus c).inRevocation with
  | false =>
    rcases hok with hin | hpos
    · rw [hrev] at hin
      cases hin
    · exact (h.intr_tick hrev hcall).1 hpos
  | true =>
    unfold Exokernel.schedIntr at hcall
    split at hcall
    · cases hcall
    rw [if_pos hrev] at hcall
    split at hcall
    · obtain ⟨k, hfree, hcall⟩ := bind_eq_some_iff.mp hcall
      refine schedInv.schedRunnext (schedInv.frame ?_ (schedInv.kill _ hfree h)) hcall
      exact .modCpu _ c fun _ => ⟨rfl, rfl, rfl⟩
    · cases hcall
      exact schedInv.frame (.setQx ..) h

/-- **The condition is exact.** An interrupt keeps the bound if and only if it comes in
    time. -/
theorem intr_iff (h : TicksOk s) (hcall : Exokernel.schedIntr s c wake = some t) :
    TicksOk t ↔ (SchedOp.intr wake).InTime s c := by
  refine ⟨fun hok => ?_, fun hin => h.schedIntr hin hcall⟩
  cases hrev : (s.cpus c).inRevocation with
  | true => exact .inl hrev
  | false =>
    refine .inr ?_
    by_contra hpos
    have hzero : s.left c = 0 := by
      rw [lt_def] at hpos
      exact eq_of_toNat_eq (by simpa using hpos)
    exact (h.intr_tick hrev hcall).2 hzero hok

theorem exec (h : TicksOk s) {op : SchedOp} (hok : op.InTime s c)
    (hexec : op.exec s c = some t) : TicksOk t := by
  obtain ⟨cur, -, hexec⟩ := bind_eq_some_iff.mp hexec
  cases op with
  | quantum sn k q cpu envid =>
    obtain ⟨⟨r, s₁⟩, hcall, rfl⟩ := map_eq_some_iff.mp hexec
    exact h.sysQuantumSet hcall
  | envAlloc clone kcap junk ua =>
    obtain ⟨⟨r, k⟩, -, rfl⟩ := map_eq_some_iff.mp hexec
    dsimp only
    split <;> exact h
  | envFree kcap envid wake => exact schedInv.sysEnvFree h hexec
  | yield wake => exact schedInv.schedRunnext h hexec
  | yields wake => exact schedInv.yields h hexec
  | fastyield wake => exact schedInv.fastyield h hexec
  | intr wake => exact h.schedIntr hok hexec
  | store ua =>
    cases hexec
    exact schedInv.frame (.modUarea ..) h
  | reschedule envid =>
    cases hexec
    split
    · exact schedInv.frame (.setReschedule ..) h
    · exact h

end TicksOk

/-! ## 2. A slice

What an environment gets before it is asked to leave: ticks that do not revoke the
processor, with anything in between that neither gives the quantum new ticks nor makes
another one current. -/

/-- From `s` on, `n` ticks on processor `c`'s quantum did not lead to
    `revoke_processor`. -/
inductive Slice (c : Fin nrCpus) (s : Sched) : Nat → Sched → Prop where
  | start : Slice c s 0 s
  | tick {n : Nat} {t u : Sched} {wake : Nat → Fin nenv → BitVec 32} (h : Slice c s n t)
      (hrev : (t.cpus c).inRevocation = false) (hok : (SchedOp.intr wake).InTime t c)
      (hstay : ¬ t.expires c) (hexec : (SchedOp.intr wake).exec t c = some u) :
      Slice c s (n + 1) u
  | other {n : Nat} {t u : Sched} {c' : Fin nrCpus} {op : SchedOp} (h : Slice c s n t)
      (hexec : op.exec t c' = some u) (hq : (u.cpus c).curq = (t.cpus c).curq)
      (hticks : u.left c ≤ t.left c) : Slice c s n u

/-- A tick that does not revoke takes one and leaves at least one. -/
theorem left_tick {s t : Sched} {c : Fin nrCpus} {wake : Nat → Fin nenv → BitVec 32}
    (hrev : (s.cpus c).inRevocation = false) (hok : (SchedOp.intr wake).InTime s c)
    (hstay : ¬ s.expires c) (hexec : (SchedOp.intr wake).exec s c = some t) :
    (t.left c).toNat + 1 = (s.left c).toNat ∧ 0 < (t.left c).toNat := by
  obtain ⟨cur, hcur, hexec⟩ := bind_eq_some_iff.mp hexec
  change schedIntr s c wake = some t at hexec
  simp only [schedIntr, hcur, hrev, Bool.false_eq_true, if_false, if_neg hstay, some.injEq] at hexec
  have hpos : 0 < s.left c := hok.resolve_left (by simp [hrev])
  have hleft : t.left c = s.left c - 1 := by
    subst hexec
    simp [Sched.left, Sched.modQ, Sched.modCpu]
  have hone : ¬ s.left c - 1 ≤ 0 := hstay
  rw [hleft]
  exact ⟨toNat_pred hpos, by simpa [lt_def] using not_le.mp hone⟩

/-- The ticks of a slice are taken from what was there when it began. -/
theorem Slice.bound {c : Fin nrCpus} {s t : Sched} {n : Nat} (h : Slice c s n t) :
    n + (t.left c).toNat ≤ (s.left c).toNat ∧ (n = 0 ∨ n < (s.left c).toNat) := by
  induction h with
  | start => exact ⟨by omega, .inl rfl⟩
  | tick _ hrev hok hstay hexec ih =>
    have := left_tick hrev hok hstay hexec
    omega
  | other _ _ _ hticks ih =>
    rw [le_def] at hticks
    omega

/-! ## 3. Every run -/

theorem schedInit_ticksOk (k : Kernel) (present : Fin nrCpus → Bool) (uarea : Fin nenv → Uarea) :
    TicksOk (schedInit k present uarea) := by
  intro c q
  change (0 : BitVec 32) ≤ ticksMask
  decide

/-- In every run from boot in which the ticks come in time, no quantum has more than
    `TICKS_MASK` ticks, and the processor is revoked before a quantum has been charged
    that often; a tick that does not come in time breaks the bound at once. -/
theorem slices_bounded {k : Kernel} {present : Fin nrCpus → Bool} {uarea : Fin nenv → Uarea}
    {s : Sched} (hrun : SchedOp.Run (fun s x => x.2.InTime s x.1) (schedInit k present uarea) s) :
    (∀ c q, ((s.cpus c).qvec q).ticks ≤ ticksMask) ∧
    (∀ c n t, Slice c s n t → n < ticksMask.toNat) ∧
    ∀ c wake t, schedIntr s c wake = some t →
      ((∀ c q, ((t.cpus c).qvec q).ticks ≤ ticksMask) ↔ (SchedOp.intr wake).InTime s c) := by
  have hs : TicksOk s :=
    hrun.invariant (schedInit_ticksOk k present uarea) fun s x t h hok hexec => h.exec hok hexec
  refine ⟨hs, fun c n t hslice => ?_, fun c wake t hcall => hs.intr_iff hcall⟩
  have hmask := hs c (s.cpus c).curq
  rw [le_def] at hmask
  have hbound := hslice.bound.2
  have hfifteen : ticksMask.toNat = 15 := rfl
  have hleft : (s.left c).toNat ≤ ticksMask.toNat := hmask
  omega

/-- Nobody asks anything of his predicate. -/
def noWake : Nat → Fin nenv → BitVec 32 := fun _ _ => 0

/-- Quantum 2 is given to environment 1, which runs on it and sets up an epilogue. -/
def startSlice : List (Fin nrCpus × SchedOp) :=
  [(0, .quantum .alloc 0 2 0 0x801), (0, .yield noWake), (0, .store ⟨1, -1, 0x1000⟩)]

/-- The slice of environment 1 is used up. -/
def useSlice : List (Fin nrCpus × SchedOp) := List.replicate 8 (0, .intr noWake)

/-- In its epilogue it yields to environment 2. -/
def donateSlice : List (Fin nrCpus × SchedOp) :=
  [(0, .store ⟨1, 0x1002, 0x1000⟩), (0, .yield noWake)]

/-- The operations of a list, one after the other. -/
def runOps (ops : List (Fin nrCpus × SchedOp)) (s : Sched) : Option Sched :=
  Run.execAll (fun s (x : Fin nrCpus × SchedOp) => x.2.exec s x.1) ops s

/-- Environment 1 runs on quantum 2, and its slice is bounded. -/
theorem slices_bounded_start :
    ∃ s, runOps startSlice threeEnvsSched = some s ∧ (s.cpus 0).curq = 2 ∧
      ∀ n t, Slice 0 s n t → n < 15 := by
  have hq : (runOps startSlice threeEnvsSched).map (fun s => (s.cpus 0).curq) = some 2 := by
    decide +kernel
  obtain ⟨s, hs, hcurq⟩ := map_eq_some_iff.mp hq
  have hok : ∀ t, ∀ x ∈ startSlice, x.2.InTime t x.1 := by
    intro t x hx
    simp only [startSlice, List.mem_cons, List.not_mem_nil, or_false] at hx
    rcases hx with rfl | rfl | rfl <;> trivial
  exact ⟨s, hs, hcurq, fun n t => (slices_bounded (Run.reaches_execAll startSlice hok hs)).2.1 0 n t⟩

/-- Environment 2, running on what environment 1 has left, which is nothing, is given
    more than four thousand million ticks by the next interrupt. -/
theorem ticks_wrap :
    ∃ s, SchedOp.Run (fun _ _ => True) threeEnvsSched s ∧ (s.cpus 0).curenv = some 2 ∧
      ((s.cpus 0).qvec 2).ticks = 0xffffffff ∧ ticksMask < ((s.cpus 0).qvec 2).ticks := by
  have hend : (runOps (startSlice ++ useSlice ++ donateSlice ++ [(0, .intr noWake)])
      threeEnvsSched).map (fun s => ((s.cpus 0).curenv, ((s.cpus 0).qvec 2).ticks)) =
        some (some 2, 0xffffffff) := by decide +kernel
  obtain ⟨s, hs, heq⟩ := map_eq_some_iff.mp hend
  obtain ⟨hcur, hticks⟩ := Prod.mk.inj heq
  refine ⟨s, Run.reaches_execAll _ (fun _ _ _ => trivial) hs, hcur, hticks, ?_⟩
  rw [hticks]
  decide

end Exokernel
