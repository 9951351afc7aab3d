import Exokernel.Kern.Sched
import Exokernel.Proof.Confine

/-!
# The scan — which quantum the scheduler picks

`sched_runnext` starts behind the current quantum `icq` and goes once round the vector, passing over
quantum 0 and giving out ticks where the round begins again. **The `k`-th quantum it looks at is
`nthQuantum icq k`**, for `k` from 1 to `NQUANTUM - 1`, and it looks at each of them once. So what
it finds there is the quantum as it was when the call began, with the new ticks if the scan has come
past the end, and all that it does to the vector on its way is to free what is garbage.

**Garbage is only found where there is time left.** A quantum without ticks is passed over before its
environment is looked up, so the quanta of the dead are not freed before they have been given ticks.
-/
set_option autoImplicit false

namespace Exokernel

open Function

/-! ## 1. What no quantum notices -/

/-- No quantum, no map and no environment is different. -/
structure CpuFrame (s t : Sched) : Prop where
  kern : t.kern = s.kern
  quanta : t.quanta = s.quanta
  present : t.present = s.present
  qvec : ∀ c, (t.cpus c).qvec = (s.cpus c).qvec
  list : ∀ c, (t.cpus c).qfreelist = (s.cpus c).qfreelist
  curq : ∀ c, (t.cpus c).curq = (s.cpus c).curq

namespace CpuFrame

variable {s t u : Sched}

theorem refl (s : Sched) : CpuFrame s s :=
  ⟨rfl, rfl, rfl, fun _ => rfl, fun _ => rfl, fun _ => rfl⟩

theorem trans (h : CpuFrame s t) (h' : CpuFrame t u) : CpuFrame s u :=
  ⟨h'.kern.trans h.kern, h'.quanta.trans h.quanta, h'.present.trans h.present,
    fun c => (h'.qvec c).trans (h.qvec c), fun c => (h'.list c).trans (h.list c),
    fun c => (h'.curq c).trans (h.curq c)⟩

theorem modCpu (s : Sched) (c : Fin nrCpus) {f : CpuContext → CpuContext}
    (hf : ∀ cx, (f cx).qvec = cx.qvec ∧ (f cx).qfreelist = cx.qfreelist ∧ (f cx).curq = cx.curq) :
    CpuFrame s (s.modCpu c f) := by
  refine ⟨rfl, rfl, rfl, fun c' => ?_, fun c' => ?_, fun c' => ?_⟩
  all_goals
    rw [Sched.modCpu_cpus]
    split
  · exact (hf _).1
  · rfl
  · exact (hf _).2.1
  · rfl
  · exact (hf _).2.2
  · rfl

theorem modUarea (s : Sched) (i : Fin nenv) (f : Uarea → Uarea) : CpuFrame s (s.modUarea i f) :=
  ⟨rfl, rfl, rfl, fun _ => rfl, fun _ => rfl, fun _ => rfl⟩

theorem setQx (s : Sched) (qx : Fin nenv → BitVec 32) : CpuFrame s { s with qx := qx } :=
  ⟨rfl, rfl, rfl, fun _ => rfl, fun _ => rfl, fun _ => rfl⟩

theorem setReschedule (s : Sched) (envid : BitVec 32) :
    CpuFrame s { s with shouldReschedule := envid } :=
  ⟨rfl, rfl, rfl, fun _ => rfl, fun _ => rfl, fun _ => rfl⟩

theorem envRun (s : Sched) (c : Fin nrCpus) (i : Fin nenv) : CpuFrame s (s.envRun c i) :=
  .modCpu s c fun _ => ⟨rfl, rfl, rfl⟩

theorem takeDonation (s : Sched) (c : Fin nrCpus) : CpuFrame s (takeDonation s c).2 := by
  unfold Exokernel.takeDonation
  split <;> exact ⟨rfl, rfl, rfl, fun _ => rfl, fun _ => rfl, fun _ => rfl⟩

/-- An environment that is looked at is run or it is not; its quantum does not change. -/
theorem visitEnv (s : Sched) (c : Fin nrCpus) (i : Fin nenv) (envid wake : BitVec 32) :
    CpuFrame s (visitEnv s c i envid wake).2 := by
  unfold Exokernel.visitEnv
  dsimp only
  split
  · generalize hs₁ : (if (s.uarea i).status = uSleep ∧ wake ≠ 0 then _ else s) = s₁
    have hwoken : CpuFrame s s₁ := by
      subst hs₁
      split
      · exact .modUarea s i _
      · exact .refl s
    split
    · exact hwoken.trans (.envRun s₁ c i)
    · exact hwoken
  · exact .refl s

end CpuFrame

/-! ## 2. What a quantum is taken for -/

/-- `more_ticks`, for one quantum. -/
def Quantum.refill (q : Quantum) : Quantum :=
  if q.used then
    { q with ticks := if ticksMask < q.ticks + baseTicks then ticksMask else q.ticks + baseTicks }
  else q

/-- A quantum whose environment is looked up. -/
def Quantum.Active (q : Quantum) : Prop := q.used = true ∧ q.envid ≠ 0 ∧ q.ticks ≠ 0

/-- Environment `i` can run: it is awake, or `wake`, what its predicate says, wakes it. -/
def Sched.Ready (s : Sched) (i : Fin nenv) (wake : BitVec 32) : Prop :=
  (s.kern.envs i).u.isSome ∧ (s.kern.envs i).status = .ok ∧
    (uSleep.slt (s.uarea i).status ∨ (s.uarea i).status = uSleep ∧ wake ≠ 0)

/-- The `k`-th quantum after `icq`: `icq + 1, …, NQUANTUM - 1, 1, …, icq`. -/
def nthQuantum (icq : Fin nquantum) (k : Nat) : Fin nquantum :=
  ⟨(icq.val + k - 1) % (nquantum - 1) + 1, by have := Nat.mod_lt (icq.val + k - 1)
                                                 (show 0 < nquantum - 1 by decide); omega⟩

section
variable (s : Sched) (c : Fin nrCpus) (wake : Nat → Fin nenv → BitVec 32) (k : Nat)

/-- Quantum `q` when the scan is at its `k`-th: with new ticks if it has come past the end. -/
def Sched.lap (q : Fin nquantum) : Quantum :=
  if nquantum ≤ (s.cpus c).curq.val + k then ((s.cpus c).qvec q).refill else (s.cpus c).qvec q

/-- What the scan finds at its `k`-th quantum. -/
def Sched.found : Quantum := s.lap c k (nthQuantum (s.cpus c).curq k)

/-- The `k`-th quantum has environment `i` run. -/
def Sched.Picks (i : Fin nenv) : Prop :=
  (s.found c k).Active ∧ envId2env s.kern (s.found c k).envid = .ok i ∧
    s.Ready i (wake (nquantum - k) i)

/-- The `k`-th quantum has ticks left and its environment is gone. -/
def Sched.Stale : Prop :=
  (s.found c k).Active ∧ ∃ r, envId2env s.kern (s.found c k).envid = .error r

/-- Quantum `q` is one of those looked at before the `n`-th, and was stale. -/
def Sched.Collected (n : Nat) (q : Fin nquantum) : Prop :=
  ∃ m, 0 < m ∧ m < n ∧ nthQuantum (s.cpus c).curq m = q ∧ s.Stale c m

end

/-- `t` is the state when the scan from `s` is at its `k`-th quantum and has dealt with those before
    the `n`-th. -/
structure Scanned (s : Sched) (c : Fin nrCpus) (n k : Nat) (t : Sched) : Prop where
  kern : t.kern = s.kern
  curq : (t.cpus c).curq = nthQuantum (s.cpus c).curq k
  freed : ∀ q, s.Collected c n q → (t.cpus c).qvec q = ⟨0, 0, false, .link⟩
  kept : ∀ q, ¬ s.Collected c n q → (t.cpus c).qvec q = s.lap c k q

/-- And nothing has been run yet. -/
structure Scanning (s : Sched) (c : Fin nrCpus) (n k : Nat) (t : Sched) : Prop
    extends Scanned s c n k t where
  status : ∀ i, (t.uarea i).status = (s.uarea i).status
  idle : (t.cpus c).idleEnv = (s.cpus c).idleEnv

variable {s t : Sched} {c : Fin nrCpus} {i : Fin nenv} {k n : Nat} {envid w : BitVec 32}
  {icq : Fin nquantum}

/-! ## 3. The positions -/

theorem nthQuantum_val (icq : Fin nquantum) (k : Nat) :
    (nthQuantum icq k).val = (icq.val + k - 1) % 127 + 1 := rfl

theorem nextQuantum_val : ∀ q : Fin nquantum, (q + 1 = 0 ↔ q.val = 127) ∧
    (if q + 1 = 0 then (1 : Fin nquantum) else q + 1).val = q.val % 127 + 1 := by decide

theorem curq_bounds (hicq : icq ≠ 0) : 0 < icq.val ∧ icq.val < 128 :=
  ⟨Nat.pos_of_ne_zero fun h => hicq (Fin.ext h), icq.isLt⟩

theorem nthQuantum_ne {m : Nat} (hicq : icq ≠ 0) (hm : 0 < m) (hmk : m < k) (hk : k < nquantum) :
    nthQuantum icq m ≠ nthQuantum icq k := by
  intro heq
  have hval := congrArg Fin.val heq
  rw [nthQuantum_val, nthQuantum_val] at hval
  unfold nquantum at hk
  have hicq := curq_bounds hicq
  omega

theorem nthQuantum_succ (hicq : icq ≠ 0) (k : Nat) :
    nthQuantum icq (k + 1) = if nthQuantum icq k + 1 = 0 then 1 else nthQuantum icq k + 1 := by
  apply Fin.ext
  rw [(nextQuantum_val _).2, nthQuantum_val, nthQuantum_val]
  have hicq := curq_bounds hicq
  omega

/-- The round begins again once. -/
theorem nthQuantum_wrap (hicq : icq ≠ 0) (hk : k < 127) :
    nthQuantum icq k + 1 = 0 ↔ icq.val + k = 127 := by
  rw [(nextQuantum_val _).1, nthQuantum_val]
  have hicq := curq_bounds hicq
  omega

/-- The scan comes back to where it began with its last quantum. -/
theorem nthQuantum_eq_iff (hicq : icq ≠ 0) (hk : 0 < k) (hk' : k < nquantum) :
    nthQuantum icq k = icq ↔ k = 127 := by
  rw [Fin.ext_iff, nthQuantum_val]
  have hicq := curq_bounds hicq
  unfold nquantum at hk'
  omega

/-! ## 4. One quantum -/

theorem visitEnv_ready (hid : envId2env s.kern envid = .ok i) (hr : s.Ready i w) :
    ∃ t, visitEnv s c i envid w = (true, t) ∧ (t.cpus c).curenv = some i := by
  obtain ⟨hu, hok, hawake⟩ := hr
  have hlive : (s.kern.envs i).u.isSome ∧ (s.kern.envs i).status = .ok ∧
      (s.kern.envs i).id = envid := ⟨hu, hok, (envId2env_ok_iff.mp hid).2.2⟩
  unfold visitEnv
  dsimp only
  rw [if_pos hlive]
  rcases hawake with hawake | hsleep
  · have hne : ¬ ((s.uarea i).status = uSleep ∧ w ≠ 0) := by
      intro h
      rw [h.1] at hawake
      cases hawake
    rw [if_neg hne, if_pos hawake]
    exact ⟨_, rfl, by simp [Sched.envRun, Sched.modCpu]⟩
  · have hone : uSleep.slt ((s.modUarea i fun u => { u with status := u.status + 1 }).uarea
        i).status = true := by
      simp only [Sched.modUarea, update_self, hsleep.1]
      decide
    rw [if_pos hsleep, if_pos hone]
    exact ⟨_, rfl, by simp [Sched.envRun, Sched.modCpu]⟩

theorem visitEnv_not_ready (hr : ¬ s.Ready i w) : visitEnv s c i envid w = (false, s) := by
  unfold visitEnv
  dsimp only
  split
  · rename_i hlive
    have hasleep := fun h => hr ⟨hlive.1, hlive.2.1, h⟩
    rw [if_neg fun h => hasleep (.inr h)]
    rw [if_neg fun h => hasleep (.inl h)]
  · rfl

theorem nextQuantum_cpus (t : Sched) (c : Fin nrCpus) : (nextQuantum t c).cpus c =
    { t.cpus c with
      curq := if (t.cpus c).curq + 1 = 0 then 1 else (t.cpus c).curq + 1
      qvec := fun q => if (t.cpus c).curq + 1 = 0 then ((t.cpus c).qvec q).refill
        else (t.cpus c).qvec q } := by
  unfold nextQuantum
  split
  · simp [moreTicks, Sched.modCpu, Quantum.refill]
  · simp [Sched.modCpu]

theorem Scanned.frame {t' : Sched} (h : Scanned s c n k t) (hf : CpuFrame t t') :
    Scanned s c n k t' :=
  ⟨hf.kern.trans h.kern, (hf.curq c).trans h.curq, fun q hq => by rw [hf.qvec]; exact h.freed q hq,
    fun q hq => by rw [hf.qvec]; exact h.kept q hq⟩

namespace Scanning

theorem next (h : Scanning s c n k t) (hicq : (s.cpus c).curq ≠ 0) (hk : k < 127) :
    Scanning s c n (k + 1) (nextQuantum t c) := by
  have hwrap := nthQuantum_wrap hicq hk
  have hcpus := nextQuantum_cpus t c
  rw [h.curq] at hcpus
  refine ⟨⟨?_, ?_, fun q hq => ?_, fun q hq => ?_⟩, fun i => ?_, ?_⟩
  · unfold nextQuantum
    split <;> exact h.kern
  · rw [hcpus]
    exact (nthQuantum_succ hicq k).symm
  · rw [hcpus]
    dsimp only
    rw [h.freed q hq]
    split <;> rfl
  · rw [hcpus]
    dsimp only
    rw [h.kept q hq]
    unfold Sched.lap nquantum
    have hicq := curq_bounds hicq
    by_cases hend : (s.cpus c).curq.val + k = 127
    · rw [if_pos (hwrap.mpr hend), if_neg (by omega), if_pos (by omega)]
    · rw [if_neg fun hz => hend (hwrap.mp hz)]
      exact if_congr (by omega) rfl rfl
  · unfold nextQuantum
    split <;> exact h.status i
  · rw [hcpus]
    exact h.idle

/-- What is found at the `k`-th quantum has not been changed on the way there. -/
theorem at_found (h : Scanning s c k k t) (hicq : (s.cpus c).curq ≠ 0) (hk : k < nquantum) :
    (t.cpus c).qvec (t.cpus c).curq = s.found c k := by
  rw [h.curq]
  refine h.kept _ ?_
  rintro ⟨m, hm, hmk, heq, -⟩
  exact nthQuantum_ne hicq hm hmk hk heq

theorem collected_succ (hk : 0 < k) (q : Fin nquantum) : s.Collected c (k + 1) q ↔
    s.Collected c k q ∨ nthQuantum (s.cpus c).curq k = q ∧ s.Stale c k := by
  constructor
  · rintro ⟨m, hm, hmk, heq, hstale⟩
    rcases Nat.lt_succ_iff_lt_or_eq.mp hmk with hlt | rfl
    · exact .inl ⟨m, hm, hlt, heq, hstale⟩
    · exact .inr ⟨heq, hstale⟩
  · rintro (⟨m, hm, hmk, heq⟩ | hlast)
    · exact ⟨m, hm, Nat.lt_succ_of_lt hmk, heq⟩
    · exact ⟨k, hk, Nat.lt_succ_self k, hlast⟩

theorem pass (h : Scanning s c k k t) (hk : 0 < k) (hstale : ¬ s.Stale c k) :
    Scanning s c (k + 1) k t := by
  have hiff : ∀ q, s.Collected c (k + 1) q ↔ s.Collected c k q := fun q => by
    simp [collected_succ hk, hstale]
  exact { h with
    freed := fun q hq => h.freed q ((hiff q).mp hq)
    kept := fun q hq => h.kept q fun hc => hq ((hiff q).mpr hc) }

theorem collect (h : Scanning s c k k t) (hicq : (s.cpus c).curq ≠ 0) (hk : 0 < k)
    (hk' : k < nquantum) (hstale : s.Stale c k) :
    Scanning s c (k + 1) k (quantumFree t c (t.cpus c).curq) := by
  have hused : ((t.cpus c).qvec (t.cpus c).curq).used = true := by
    rw [h.at_found hicq hk']
    exact hstale.1.1
  have hcpus : (quantumFree t c (t.cpus c).curq).cpus c =
      { t.cpus c with
        qvec := update (t.cpus c).qvec (t.cpus c).curq ⟨0, 0, false, .link⟩
        qfreelist := (t.cpus c).curq :: (t.cpus c).qfreelist } := by
    simp [quantumFree, hused, Sched.modQ, Sched.modCpu]
  have hsame : (quantumFree t c (t.cpus c).curq).kern = t.kern ∧
      (quantumFree t c (t.cpus c).curq).uarea = t.uarea := by
    unfold quantumFree
    split <;> exact ⟨rfl, rfl⟩
  refine ⟨⟨hsame.1.trans h.kern, ?_, fun q hq => ?_, fun q hq => ?_⟩, fun i => ?_, ?_⟩
  · rw [hcpus]
    exact h.curq
  rotate_right 2
  · rw [hsame.2]
    exact h.status i
  · rw [hcpus]
    exact h.idle
  all_goals
    rw [hcpus]
    dsimp only
    rw [h.curq]
    rw [collected_succ hk] at hq
  · by_cases hcur : q = nthQuantum (s.cpus c).curq k
    · rw [hcur, update_self]
    · rw [update_of_ne hcur]
      exact h.freed q (hq.resolve_right fun hlast => hcur hlast.1.symm)
  · have hcur : q ≠ nthQuantum (s.cpus c).curq k := fun heq => hq (.inr ⟨heq.symm, hstale⟩)
    rw [update_of_ne hcur]
    exact h.kept q fun hc => hq (.inl hc)

/-- **One quantum**: its environment is run, or the scan goes on with the quantum dealt with. -/
theorem visit (h : Scanning s c k k t) (wake : Nat → Fin nenv → BitVec 32)
    (hicq : (s.cpus c).curq ≠ 0) (hk : 0 < k) (hk' : k < nquantum) :
    ∃ ran t', visitQuantum t c (wake (nquantum - k)) = (ran, t') ∧
      if ran then Scanned s c (k + 1) k t' ∧ ∃ i, s.Picks c wake k i ∧ (t'.cpus c).curenv = some i
      else Scanning s c (k + 1) k t' ∧ ∀ i, ¬ s.Picks c wake k i := by
  have hready : ∀ i, t.Ready i (wake (nquantum - k) i) ↔ s.Ready i (wake (nquantum - k) i) := by
    intro i
    unfold Sched.Ready
    rw [h.kern, h.status]
  unfold visitQuantum
  dsimp only
  rw [h.at_found hicq hk']
  by_cases hact : (s.found c k).used ∧ (s.found c k).envid ≠ 0 ∧ (s.found c k).ticks ≠ 0
  · rw [if_pos hact, h.kern]
    cases hid : envId2env s.kern (s.found c k).envid with
    | error e =>
      refine ⟨_, _, rfl, h.collect hicq hk hk' ⟨hact, e, hid⟩, ?_⟩
      rintro i ⟨-, hi, -⟩
      rw [hid] at hi
      cases hi
    | ok i =>
      have hpass : Scanning s c (k + 1) k t := by
        refine h.pass hk ?_
        rintro ⟨-, e, he⟩
        rw [hid] at he
        cases he
      dsimp only
      by_cases hr : s.Ready i (wake (nquantum - k) i)
      · have hid' : envId2env t.kern (s.found c k).envid = .ok i := by rw [h.kern, hid]
        obtain ⟨t', hv, hcur⟩ := visitEnv_ready (c := c) hid' ((hready i).mpr hr)
        have hframe : CpuFrame t t' := by
          rw [show t' = (visitEnv t c i _ _).2 by rw [hv]]
          exact .visitEnv ..
        exact ⟨true, t', hv, hpass.frame hframe, i, ⟨hact, hid, hr⟩, hcur⟩
      · refine ⟨false, t, visitEnv_not_ready fun hr' => hr ((hready i).mp hr'), hpass, ?_⟩
        rintro j ⟨-, hj, hrj⟩
        rw [hid] at hj
        cases hj
        exact hr hrj
  · rw [if_neg hact]
    exact ⟨_, _, rfl, h.pass hk fun hstale => hact hstale.1, fun i hp => hact hp.1⟩

end Scanning

/-! ## 5. The scan -/

/-- How a scan ends: at its `n`-th quantum, the first one that has its environment run, or at the
    last one with the idle environment. -/
def ScanEnds (s : Sched) (c : Fin nrCpus) (wake : Nat → Fin nenv → BitVec 32) (t : Sched) : Prop :=
  ∃ n, 0 < n ∧ n < nquantum ∧ Scanned s c (n + 1) n t ∧
    (∀ m, 0 < m → m < n → ∀ i, ¬ s.Picks c wake m i) ∧
    ((∃ i, s.Picks c wake n i ∧ (t.cpus c).curenv = some i) ∨
      n = nquantum - 1 ∧ (∀ i, ¬ s.Picks c wake n i) ∧
        (t.cpus c).curenv = some (s.cpus c).idleEnv)

/-- The rest of the loop, from the `k`-th quantum on. -/
theorem Scanning.runLoop (wake : Nat → Fin nenv → BitVec 32) (hicq : (s.cpus c).curq ≠ 0)
    (left : Nat) :
    ∀ {k : Nat} {t : Sched}, k + left = nquantum + 1 → 0 < k → k < nquantum →
      Scanning s c k k t → (∀ m, 0 < m → m < k → ∀ i, ¬ s.Picks c wake m i) →
      ∃ t', runLoop c (s.cpus c).curq wake left t = some t' ∧ ScanEnds s c wake t' := by
  induction left with
  | zero =>
    intro k t hsum _ hk
    omega
  | succ left ih =>
    intro k t hsum hk hk' h hnone
    obtain rfl : left = nquantum - k := by omega
    obtain ⟨ran, t', hvisit, hrest⟩ := h.visit wake hicq hk hk'
    unfold Exokernel.runLoop
    rw [hvisit]
    cases ran with
    | true => exact ⟨t', rfl, k, hk, hk', hrest.1, hnone, .inl hrest.2⟩
    | false =>
      obtain ⟨hscan, hpass⟩ := hrest
      dsimp only
      rw [hscan.curq]
      by_cases hlast : nthQuantum (s.cpus c).curq k = (s.cpus c).curq
      · rw [if_pos hlast]
        refine ⟨_, rfl, k, hk, hk', hscan.frame (.envRun ..), hnone,
          .inr ⟨(nthQuantum_eq_iff hicq hk hk').mp hlast, hpass, ?_⟩⟩
        simp [Sched.envRun, Sched.modCpu, hscan.idle]
      · rw [if_neg hlast]
        have hlt : k < 127 := by
          have hne : k ≠ 127 := fun h => hlast ((nthQuantum_eq_iff hicq hk hk').mpr h)
          unfold nquantum at hk'
          omega
        refine ih (by omega) (by omega) (by unfold nquantum; omega) (hscan.next hicq hlt) ?_
        intro m hm hmk i
        rcases Nat.lt_succ_iff_lt_or_eq.mp hmk with hlt | rfl
        · exact hnone m hm hlt i
        · exact hpass i

theorem Scanning.start (hf : CpuFrame s t) (hs : ∀ i, (t.uarea i).status = (s.uarea i).status)
    (hidle : (t.cpus c).idleEnv = (s.cpus c).idleEnv) (hicq : (s.cpus c).curq ≠ 0) :
    Scanning s c 1 1 (nextQuantum t c) := by
  have hzero : Scanning s c 1 0 t := by
    refine ⟨⟨hf.kern, ?_, ?_, fun q _ => ?_⟩, hs, hidle⟩
    · rw [hf.curq]
      apply Fin.ext
      rw [nthQuantum_val]
      have hicq := curq_bounds hicq
      omega
    · rintro q ⟨m, hm, hm', -⟩
      omega
    · rw [hf.qvec, Sched.lap, Nat.add_zero, if_neg (Nat.not_le.mpr (s.cpus c).curq.isLt)]
  exact hzero.next hicq (by decide)

/-- The environment that a yield names, if it can run. -/
def Sched.Yields (s : Sched) (c : Fin nrCpus) (wake : Nat → Fin nenv → BitVec 32) : Prop :=
  (takeDonation s c).1 ≠ -1 ∧
    ∃ i, envId2env s.kern (takeDonation s c).1 = .ok i ∧ s.Ready i (wake nquantum i)

theorem takeDonation_same (s : Sched) (c : Fin nrCpus) :
    (∀ i, ((takeDonation s c).2.uarea i).status = (s.uarea i).status) ∧
      ((takeDonation s c).2.cpus c).idleEnv = (s.cpus c).idleEnv := by
  unfold takeDonation
  split
  · exact ⟨fun _ => rfl, rfl⟩
  · rename_i cur _
    refine ⟨fun i => ?_, rfl⟩
    by_cases hi : i = cur
    · subst hi
      simp [Sched.modUarea]
    · simp [Sched.modUarea, hi]

theorem schedRunnext_start (s : Sched) (c : Fin nrCpus) (wake : Nat → Fin nenv → BitVec 32) :
    ∃ ran t, CpuFrame s t ∧
      schedRunnext s c wake =
        (if ran then some t else runLoop c (s.cpus c).curq wake nquantum (nextQuantum t c)) ∧
      (¬ s.Yields c wake → ran = false ∧ (∀ i, (t.uarea i).status = (s.uarea i).status) ∧
        (t.cpus c).idleEnv = (s.cpus c).idleEnv) := by
  have hclear : CpuFrame s (s.modCpu c ({ · with inRevocation := false })) :=
    .modCpu s c fun _ => ⟨rfl, rfl, rfl⟩
  have hdon := hclear.trans (.takeDonation _ c)
  have hsame : (takeDonation (s.modCpu c ({ · with inRevocation := false })) c).1 =
      (takeDonation s c).1 := by
    unfold takeDonation
    simp only [Sched.modCpu, update_self]
    cases (s.cpus c).curenv <;> rfl
  obtain ⟨hstatus, hidle⟩ := takeDonation_same (s.modCpu c ({ · with inRevocation := false })) c
  rw [Sched.modCpu_cpus, if_pos rfl] at hidle
  unfold schedRunnext
  generalize takeDonation (s.modCpu c ({ · with inRevocation := false })) c = don at *
  obtain ⟨envid, t⟩ := don
  dsimp only at *
  by_cases hno : envid = -1
  · rw [if_pos hno]
    exact ⟨false, t, hdon, rfl, fun _ => ⟨rfl, hstatus, hidle⟩⟩
  rw [if_neg hno]
  cases hid : envId2env t.kern envid with
  | error e => exact ⟨false, t, hdon, rfl, fun _ => ⟨rfl, hstatus, hidle⟩⟩
  | ok i =>
    refine ⟨_, _, hdon.trans (.visitEnv ..), rfl, fun hyield => ?_⟩
    have hr : ¬ t.Ready i (wake nquantum i) := by
      intro hr
      refine hyield ⟨hsame ▸ hno, i, ?_, ?_⟩
      · rw [← hsame, ← hdon.kern, hid]
      · rwa [Sched.Ready, hdon.kern, hstatus] at hr
    dsimp only
    rw [visitEnv_not_ready hr]
    exact ⟨rfl, hstatus, hidle⟩

/-- **The scan.** Without a yield to an environment that can run, `sched_runnext` looks at the quanta
    behind the current one in their order, each once, until one has its environment run; it runs the
    idle environment if there is none. It gives out ticks once, where it comes past the end, and
    frees those of the quanta it looked at that had ticks left and no environment. -/
theorem schedRunnext_scans (s : Sched) (c : Fin nrCpus) (wake : Nat → Fin nenv → BitVec 32)
    (hicq : (s.cpus c).curq ≠ 0) (hyield : ¬ s.Yields c wake) :
    ∃ t, schedRunnext s c wake = some t ∧ ScanEnds s c wake t := by
  obtain ⟨ran, t, hf, heq, hstart⟩ := schedRunnext_start s c wake
  obtain ⟨rfl, hs, hidle⟩ := hstart hyield
  rw [heq]
  refine Scanning.runLoop wake hicq nquantum rfl (by decide) (by decide) (.start hf hs hidle hicq) ?_
  intro m hm hm'
  omega

/-- Three environments: the idle one and two more. -/
def threeEnvs : Kernel :=
  { smallKernel with
    envs := fun i =>
      if i.val < 3 then { bootEnv rootCap with id := BitVec.ofNat 32 (i.val * 2 ^ 11 + i.val) }
      else Env.zero
    envFreeList := (List.finRange nenv).drop 3
    nextEnvId := 3 }

/-- One processor, and everybody runs without an epilogue. -/
def threeEnvsSched : Sched :=
  schedInit threeEnvs (fun c => decide (c = 0)) fun _ => ⟨1, -1, 0⟩

/-- Quantum 2 belongs to an environment that is gone. -/
def deadQuantum (ticks : BitVec 32) : Sched :=
  threeEnvsSched.modQ 0 2 fun _ => ⟨0x1803, ticks, true, .cap Cap.null⟩

/-- Behind it are a quantum of the second environment without ticks and one of the third. -/
def mixedQuanta : Sched :=
  ((deadQuantum 5).modQ 0 3 fun _ => ⟨0x0801, 0, true, .cap Cap.null⟩).modQ 0 4
    fun _ => ⟨0x1002, 5, true, .cap Cap.null⟩

/-- From quantum 1 on, quantum 2 is freed, quantum 3 passed over, and quantum 4 runs. -/
theorem schedRunnext_scans_mixed :
    ∃ t, schedRunnext mixedQuanta 0 (fun _ _ => 0) = some t ∧
      ScanEnds mixedQuanta 0 (fun _ _ => 0) t ∧ (t.cpus 0).curenv = some 2 ∧
      (t.cpus 0).curq = 4 ∧ [2, 3, 4].map (fun q => ((t.cpus 0).qvec q).used) =
        [false, true, true] := by
  obtain ⟨t, ht, hends⟩ := schedRunnext_scans mixedQuanta 0 (fun _ _ => 0) (by decide +kernel)
    fun h => h.1 rfl
  have hend : (schedRunnext mixedQuanta 0 fun _ _ => 0).map (fun t => ((t.cpus 0).curenv,
      (t.cpus 0).curq, [2, 3, 4].map fun q => ((t.cpus 0).qvec q).used)) =
      some (some 2, 4, [false, true, true]) := by decide +kernel
  rw [ht, Option.map_some, Option.some.injEq, Prod.mk.injEq, Prod.mk.injEq] at hend
  exact ⟨t, ht, hends, hend⟩

/-- **The scan leaves it as it is** if it has no ticks, and comes back to quantum 1 with the idle
    environment. -/
theorem scan_leaves_dead :
    envId2env (deadQuantum 0).kern (((deadQuantum 0).cpus 0).qvec 2).envid = .error .badEnv ∧
      (schedRunnext (deadQuantum 0) 0 fun _ _ => 0).map (fun t => ((t.cpus 0).curq,
        (t.cpus 0).curenv, ((t.cpus 0).qvec 2).used, ((t.cpus 0).qvec 2).envid)) =
      some (1, some 0, true, 0x1803) :=
  ⟨rfl, by decide +kernel⟩

end Exokernel
