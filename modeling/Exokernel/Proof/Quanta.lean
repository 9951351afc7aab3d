import Exokernel.Lib.Outcome
import Exokernel.Proof.Scan

/-!
# Who owns a quantum — two records of one fact

A quantum names its owner (`q_envid`), and every environment has a map of the quanta
it owns (`env_quanta`). `QuantaOk` says that the two agree for every environment that
is alive, and that the free list holds exactly the unused quanta.

**The maps of the dead are not looked at.** `env_free` gives nothing back: the quanta
of a dead environment go on naming it until `sched_runnext` comes past and collects
them. That is harmless for the maps, because a new environment starts with an empty
one, as long as the new id is not an old one. It is not harmless for
`sys_quantum_set` and `sys_quantum_free`, which look the owner up and write through
the pointer they get.

Every change of a quantum is a `put`: a new value for the quantum, a new free list
and new maps. One lemma (`QuantaOk.put`) says when that keeps the invariant.
-/
set_option autoImplicit false

namespace Exokernel

open Function Option BitVec Outcome

/-! ## 1. Bits of a map -/

namespace QuantaMap

variable (m : QuantaMap) (q q' : Fin nquantum)

theorem eq_iff : q' = q ↔ index q' = index q ∧ offset q' = offset q := by
  simp only [index, offset, Fin.ext_iff]
  omega

theorem offset_lt : offset q < 8 := Nat.mod_lt _ (by decide)

theorem getLsbD_bit : (1#8 <<< offset q).getLsbD (offset q') = decide (offset q' = offset q) := by
  have hq := offset_lt q
  have hq' := offset_lt q'
  rw [getLsbD_shiftLeft, getLsbD_one]
  grind

theorem get_set : (m.set q).get q' = (decide (q' = q) || m.get q') := by
  unfold get set
  by_cases hi : index q' = index q
  · rw [hi, update_self, getLsbD_or, getLsbD_bit, Bool.or_comm]
    simp [eq_iff, hi]
  · rw [update_of_ne hi]
    simp [eq_iff, hi]

theorem get_clear : (m.clear q).get q' = (!decide (q' = q) && m.get q') := by
  unfold get clear
  by_cases hi : index q' = index q
  · rw [hi, update_self, getLsbD_and, getLsbD_not, getLsbD_bit, Bool.and_comm]
    simp [eq_iff, hi, offset_lt]
  · rw [update_of_ne hi]
    simp [eq_iff, hi]

end QuantaMap

/-! ## 2. The invariant -/

/-- The free list of a processor holds exactly the unused quanta, and what lies in
    `q_u` is what `q_used` says. -/
structure CpuOk (cx : CpuContext) : Prop where
  nodup : cx.qfreelist.Nodup
  free_iff : ∀ q, q ∈ cx.qfreelist ↔ (cx.qvec q).used = false
  link_iff : ∀ q, (cx.qvec q).u = .link ↔ (cx.qvec q).used = false
  curq : cx.curq ≠ 0

/-- Environments are where their ids say. -/
def Kernel.InPlace (k : Kernel) : Prop :=
  ∀ i, (k.envs i).status ≠ .free → envidx (k.envs i).id = i

/-- The two records agree. -/
structure QuantaOk (s : Sched) : Prop where
  place : s.kern.InPlace
  cpu : ∀ c, CpuOk (s.cpus c)
  owner : ∀ i, (s.kern.envs i).status ≠ .free → ∀ c q,
    (s.quanta i c).get q = true ↔
      ((s.cpus c).qvec q).used = true ∧ ((s.cpus c).qvec q).envid = (s.kern.envs i).id

variable {c : Fin nrCpus} {i : Fin nenv} {k : Kernel} {q : Fin nquantum} {s : Sched}

theorem Kernel.InPlace.lookup (h : k.InPlace)
    (hi : (k.envs i).status ≠ .free) : envId2env k (k.envs i).id = .ok i :=
  envId2env_ok_iff.mpr ⟨h i hi, hi, rfl⟩

theorem Kernel.InPlace.id_inj (h : k.InPlace) {j : Fin nenv}
    (hi : (k.envs i).status ≠ .free) (hj : (k.envs j).status ≠ .free)
    (hij : (k.envs i).id = (k.envs j).id) : i = j := by
  rw [← h i hi, ← h j hj, hij]

theorem sysEnvFree_cases {k' : Kernel} {cur : Fin nenv} {kcap envid : BitVec 32} {r : Ret}
    (h : sysEnvFree k cur kcap envid = some (r, k')) :
    k' = k ∨ ∃ i, envFree k i = some k' := by
  unfold sysEnvFree at h
  split at h
  · cases h
    exact .inl rfl
  split at h
  · cases h
    exact .inl rfl
  obtain ⟨k₁, hfree, heq⟩ := map_eq_some_iff.mp h
  cases heq
  exact .inr ⟨_, hfree⟩

/-! ## 3. The walk round the vector

Whatever `sched_runnext` does is made of three things: a change that no quantum
notices, the step to the next quantum, and the collection of a quantum whose
environment is gone. The calls around it can also kill an environment. -/

/-- **The rule for the scheduler.** What survives these survives everything but the
    quantum calls, the clock and the birth of an environment. -/
structure SchedInv (I : Sched → Prop) : Prop where
  frame : ∀ {s t}, CpuFrame s t → I s → I t
  next : ∀ {s} c, I s → I (nextQuantum s c)
  collect : ∀ {s} c q r, envId2env s.kern ((s.cpus c).qvec q).envid = .error r → I s →
    I (quantumFree s c q)
  kill : ∀ {s k} i, envFree s.kern i = some k → I s → I { s with kern := k }

namespace SchedInv

variable {I : Sched → Prop} {s t : Sched} {c : Fin nrCpus} {wake : Nat → Fin nenv → BitVec 32}

variable (hI : SchedInv I)
include hI

theorem visitQuantum (h : I s) (wake : Fin nenv → BitVec 32) :
    I (visitQuantum s c wake).2 := by
  unfold Exokernel.visitQuantum
  dsimp only
  split
  · split
    · exact hI.frame (.visitEnv ..) h
    · rename_i hstale
      exact hI.collect c _ _ hstale h
  · exact h

theorem runLoop {icq : Fin nquantum} (left : Nat) :
    ∀ {s : Sched}, I s → runLoop c icq wake left s = some t → I t := by
  induction left with
  | zero => intro s _ hrun; cases hrun
  | succ left ih =>
    intro s h hrun
    unfold Exokernel.runLoop at hrun
    have hvisit : I (Exokernel.visitQuantum s c (wake left)).2 := hI.visitQuantum h _
    cases hv : Exokernel.visitQuantum s c (wake left) with
    | mk ran s₁ =>
      rw [hv] at hvisit
      simp only [hv] at hrun
      cases ran with
      | true =>
        obtain rfl : s₁ = t := by simpa using hrun
        exact hvisit
      | false =>
        dsimp only at hrun
        split at hrun
        · cases hrun
          exact hI.frame (.envRun ..) hvisit
        · exact ih (hI.next c hvisit) hrun

theorem schedRunnext (h : I s) (hrun : schedRunnext s c wake = some t) :
    I t := by
  obtain ⟨ran, t₁, hframe, heq, -⟩ := schedRunnext_start s c wake
  rw [heq] at hrun
  have hok := hI.frame hframe h
  split at hrun
  · cases hrun
    exact hok
  · exact hI.runLoop nquantum (hI.next c hok) hrun

theorem yields (h : I s) {i : Fin nenv} (hrun : yields s c i wake = some t) :
    I t :=
  hI.schedRunnext (hI.frame (.modUarea ..) h) hrun

theorem fastyield (h : I s) {cur : Fin nenv}
    (hrun : fastyield s c cur wake = some t) : I t := by
  unfold Exokernel.fastyield at hrun
  have hdon : CpuFrame s (s.modUarea cur ({ · with donate := -1 })) := .modUarea ..
  generalize s.modUarea cur _ = s₁ at hdon hrun
  dsimp only at hrun
  split at hrun
  · exact hI.schedRunnext (hI.frame hdon h) hrun
  split at hrun
  · exact hI.schedRunnext (hI.frame hdon h) hrun
  · cases hrun
    exact hI.frame (hdon.trans (.envRun ..)) h

theorem sysEnvFree (h : I s) {cur : Fin nenv} {kcap envid : BitVec 32}
    (hrun : s.sysEnvFree c cur kcap envid wake = some t) : I t := by
  obtain ⟨⟨r, k⟩, hk, hrun⟩ := bind_eq_some_iff.mp hrun
  have hfreed : I { s with kern := k } := by
    rcases sysEnvFree_cases hk with rfl | ⟨i, hfree⟩
    · exact h
    · exact hI.kill i hfree h
  dsimp only at hrun
  split at hrun
  · refine hI.schedRunnext (hI.frame ?_ hfreed) hrun
    exact .modCpu _ c fun _ => ⟨rfl, rfl, rfl⟩
  · cases hrun
    exact hfreed

theorem revokeProcessor (h : I s) {cur : Fin nenv}
    (hrun : revokeProcessor s c cur wake = some t) : I t := by
  unfold Exokernel.revokeProcessor at hrun
  split at hrun
  · cases hrun
    have hrev : CpuFrame s (s.modCpu c ({ · with inRevocation := true })) :=
      .modCpu s c fun _ => ⟨rfl, rfl, rfl⟩
    exact hI.frame (hrev.trans (.setQx ..)) h
  · exact hI.schedRunnext h hrun

end SchedInv

/-! ## 4. Changing one quantum -/

/-- Quantum `q` gets the value `qt`, and the free list and the maps are replaced. -/
def Sched.put (s : Sched) (c : Fin nrCpus) (q : Fin nquantum) (qt : Quantum)
    (l : List (Fin nquantum)) (maps : Fin nenv → Fin nrCpus → QuantaMap) : Sched :=
  { s.modCpu c fun cx =>
      { cx with qvec := update cx.qvec q qt, qfreelist := l } with
    quanta := maps }

/-- **The one way to change a quantum.** The new free list says whether it is used, and
    the new maps whose it is; nothing else may differ. -/
theorem QuantaOk.put {qt : Quantum}
    {l : List (Fin nquantum)} {maps : Fin nenv → Fin nrCpus → QuantaMap} (h : QuantaOk s)
    (hnodup : l.Nodup)
    (hlist : ∀ q', q' ∈ l ↔ if q' = q then qt.used = false else q' ∈ (s.cpus c).qfreelist)
    (hu : qt.u = .link ↔ qt.used = false)
    (hown : ∀ i, (s.kern.envs i).status ≠ .free →
      ((maps i c).get q = true ↔ qt.used = true ∧ qt.envid = (s.kern.envs i).id))
    (hmaps : ∀ i c' q', ¬(c' = c ∧ q' = q) → (maps i c').get q' = (s.quanta i c').get q') :
    QuantaOk (s.put c q qt l maps) := by
  refine ⟨h.place, fun c' => ?_, fun i hi c' q' => ?_⟩
  · by_cases hc : c' = c
    · subst hc
      have hcpu := h.cpu c'
      simp only [Sched.put, Sched.modCpu, update_self]
      refine ⟨hnodup, fun q' => ?_, fun q' => ?_, hcpu.curq⟩
      · rw [hlist]
        by_cases hq : q' = q
        · subst hq; simp
        · simp [hq, hcpu.free_iff]
      · by_cases hq : q' = q
        · subst hq; simpa using hu
        · simpa [hq] using hcpu.link_iff q'
    · simpa [Sched.put, Sched.modCpu, hc] using h.cpu c'
  · have hi' : (s.kern.envs i).status ≠ .free := hi
    change (maps i c').get q' = true ↔ _
    by_cases hcq : c' = c ∧ q' = q
    · obtain ⟨rfl, rfl⟩ := hcq
      simpa [Sched.put, Sched.modCpu] using hown i hi'
    rw [hmaps i c' q' hcq]
    by_cases hc : c' = c
    · subst hc
      have hq : q' ≠ q := fun hq => hcq ⟨rfl, hq⟩
      simpa [Sched.put, Sched.modCpu, hq] using h.owner i hi' c' q'
    · simpa [Sched.put, Sched.modCpu, hc] using h.owner i hi' c' q'

theorem get_modQuanta (s : Sched) (i j : Fin nenv) (c c' : Fin nrCpus) (f : QuantaMap → QuantaMap)
    (q' : Fin nquantum) :
    ((s.modQuanta i c f).quanta j c').get q' =
      if j = i ∧ c' = c then (f (s.quanta i c)).get q' else (s.quanta j c').get q' := by
  by_cases hj : j = i
  · subst hj
    by_cases hc : c' = c
    · subst hc; simp [Sched.modQuanta]
    · simp [Sched.modQuanta, hc]
  · simp [Sched.modQuanta, hj]

/-- A used quantum is freed, and no live environment's map mentions it any more. -/
theorem QuantaOk.drop
    {maps : Fin nenv → Fin nrCpus → QuantaMap} (h : QuantaOk s)
    (hused : ((s.cpus c).qvec q).used = true)
    (hown : ∀ i, (s.kern.envs i).status ≠ .free → (maps i c).get q = false)
    (hmaps : ∀ i c' q', ¬(c' = c ∧ q' = q) → (maps i c').get q' = (s.quanta i c').get q') :
    QuantaOk (s.put c q ⟨0, 0, false, .link⟩ (q :: (s.cpus c).qfreelist) maps) := by
  have hq : q ∉ (s.cpus c).qfreelist := by simp [(h.cpu c).free_iff, hused]
  refine h.put (List.nodup_cons.mpr ⟨hq, (h.cpu c).nodup⟩) (fun q' => ?_) (by simp)
    (fun i hi => by simp [hown i hi]) hmaps
  by_cases hqq : q' = q <;> simp [hqq]

/-! ## 5. Collecting the quanta of the dead -/

theorem quantumFree_eq
    (hused : ((s.cpus c).qvec q).used = true) :
    quantumFree s c q =
      s.put c q ⟨0, 0, false, .link⟩ (q :: (s.cpus c).qfreelist) s.quanta := by
  simp [quantumFree, hused, Sched.put, Sched.modQ, Sched.modCpu]

namespace QuantaOk

variable {s t : Sched}

/-- The quantum of an environment that is not there is nobody's. -/
theorem quantumFree_stale (h : QuantaOk s) {c : Fin nrCpus} {q : Fin nquantum} {r : Errno}
    (hstale : envId2env s.kern ((s.cpus c).qvec q).envid = .error r) :
    QuantaOk (quantumFree s c q) := by
  cases hused : ((s.cpus c).qvec q).used with
  | false => simpa [quantumFree, hused] using h
  | true =>
    rw [quantumFree_eq hused]
    refine h.drop hused (fun i hi => ?_) fun _ _ _ _ => rfl
    have hnot : ¬ (s.quanta i c).get q = true := by
      rw [h.owner i hi c q]
      rintro ⟨-, hid⟩
      rw [hid, h.place.lookup hi] at hstale
      cases hstale
    simpa using hnot

/-- The records are about who owns a quantum, not about its ticks or whether it is
    the current one. -/
theorem same (h : QuantaOk s) (henvs : t.kern.envs = s.kern.envs) (hmaps : t.quanta = s.quanta)
    (hlist : ∀ c, (t.cpus c).qfreelist = (s.cpus c).qfreelist)
    (hqvec : ∀ c q, ∃ n, (t.cpus c).qvec q = { (s.cpus c).qvec q with ticks := n })
    (hcurq : ∀ c, (t.cpus c).curq ≠ 0) : QuantaOk t := by
  refine ⟨fun i hi => ?_, fun c => ⟨?_, fun q => ?_, fun q => ?_, hcurq c⟩, fun i hi c q => ?_⟩
  · rw [henvs] at hi ⊢
    exact h.place i hi
  · exact hlist c ▸ (h.cpu c).nodup
  · obtain ⟨n, hq⟩ := hqvec c q
    rw [hlist, hq]
    exact (h.cpu c).free_iff q
  · obtain ⟨n, hq⟩ := hqvec c q
    rw [hq]
    exact (h.cpu c).link_iff q
  obtain ⟨n, hq⟩ := hqvec c q
  rw [henvs] at hi ⊢
  rw [hmaps, hq]
  exact h.owner i hi c q

theorem moreTicks (h : QuantaOk s) (c : Fin nrCpus) : QuantaOk (moreTicks s c) := by
  refine h.same rfl rfl (fun c' => ?_) (fun c' q => ?_) fun c' => ?_
  all_goals rw [Exokernel.moreTicks, Sched.modCpu_cpus]
  · split <;> rfl
  · split
    · dsimp only
      split <;> exact ⟨_, rfl⟩
    · exact ⟨_, rfl⟩
  · split <;> exact (h.cpu c').curq

theorem setCurq (h : QuantaOk s) (c : Fin nrCpus) {q : Fin nquantum} (hq : q ≠ 0) :
    QuantaOk (s.modCpu c ({ · with curq := q })) := by
  refine h.same rfl rfl (fun c' => ?_) (fun c' q => ⟨((s.cpus c').qvec q).ticks, ?_⟩) fun c' => ?_
  all_goals rw [Sched.modCpu_cpus]
  · split <;> rfl
  · split <;> rfl
  · split
    · exact hq
    · exact (h.cpu c').curq

end QuantaOk

/-! ## 6. The quantum calls -/

section
variable {s t : Sched} {c : Fin nrCpus} {q : Fin nquantum}

/-- A quantum is linked though it is used, or unused and not linked. -/
def BadLink (s : Sched) (c : Fin nrCpus) : Prop :=
  ∃ q, ¬(((s.cpus c).qvec q).u = .link ↔ ((s.cpus c).qvec q).used = false)

/-- A quantum is taken, or nothing happens; there is no result only if the free list is empty or
    an unused quantum is not on it. -/
theorem quantumTake_gives (qa : BitVec 32) (cp : Cap) :
    Gives (fun x => ((∃ e, x.1 = .error e) ∧ x.2 = s) ∨
      ∃ q, x.1 = .ok q ∧ ((s.cpus c).qvec q).used = false ∧
        x.2 = s.put c q { (s.cpus c).qvec q with used := true, u := .cap cp, ticks := baseTicks }
          ((s.cpus c).qfreelist.erase q) s.quanta)
      ((qa = -1 ∧ (s.cpus c).qfreelist = []) ∨ BadLink s c)
      (quantumTake s c qa cp) := by
  unfold quantumTake
  dsimp only
  split
  · exact .inl ⟨⟨_, rfl⟩, rfl⟩
  rename_i qp hqp
  cases qp with
  | none =>
    split at hqp
    · exact .inl ⟨‹_›, by simpa using hqp⟩
    · split at hqp <;> simp at hqp
  | some q =>
    simp only [quantumUnfree]
    cases hused : ((s.cpus c).qvec q).used with
    | true => exact .inl ⟨⟨_, rfl⟩, rfl⟩
    | false =>
      cases hu : ((s.cpus c).qvec q).u with
      | cap c' => exact .inr ⟨q, by simp [hused, hu]⟩
      | link =>
        refine .inr ⟨q, rfl, hused, ?_⟩
        simp [Sched.put, Sched.modQ, Sched.modCpu]

theorem quantumCheck_gives (qa : BitVec 32) (cp : Cap) :
    Gives (fun r => ∀ q, r = .ok q → q.val = qa.toNat ∧ ((s.cpus c).qvec q).used = true)
      (BadLink s c) (quantumCheck s c qa cp) := by
  unfold quantumCheck
  split
  · dsimp only
    split
    · rename_i hused
      split
      · rename_i hlink
        exact ⟨_, fun hiff => Bool.false_ne_true ((hiff.mp hlink).symm.trans hused)⟩
      split
      · rintro _ ⟨⟩
      · rintro _ ⟨⟩
        exact ⟨rfl, hused⟩
    · rintro _ ⟨⟩
  · rintro _ ⟨⟩

/-- What the three calls can do besides nothing: take an unused quantum for an
    environment, pass a used one on, or free one. They have no result only without an environment,
    a processor, a free quantum or an owner to go through, or on a bad link. -/
theorem sysQuantumSet_gives (cur : Fin nenv) (sn : QuantumSn) (k qa cpu envid : BitVec 32) :
    Gives (fun x => x.2 = s ∨ ∃ c q,
      (((s.cpus c).qvec q).used = false ∧ ∃ i cp, envId2env s.kern envid = .ok i ∧
        x.2 = s.put c q ⟨(s.kern.envs i).id, baseTicks, true, .cap cp⟩
          ((s.cpus c).qfreelist.erase q) (s.modQuanta i c (·.set q)).quanta) ∨
      (((s.cpus c).qvec q).used = true ∧ ∃ j, envId2env s.kern ((s.cpus c).qvec q).envid = .ok j ∧
        ((∃ i, envId2env s.kern envid = .ok i ∧
            x.2 = s.put c q { (s.cpus c).qvec q with envid := (s.kern.envs i).id }
              (s.cpus c).qfreelist ((s.modQuanta j c (·.clear q)).modQuanta i c (·.set q)).quanta) ∨
          x.2 = s.put c q ⟨0, 0, false, .link⟩ (q :: (s.cpus c).qfreelist)
            (s.modQuanta j c (·.clear q)).quanta)))
      ((sn ≠ .free ∧ envid = 0) ∨ ∀ c, s.cpucxt cpu = some c → BadLink s c ∨
        (sn = .alloc ∧ qa = -1 ∧ (s.cpus c).qfreelist = []) ∨
        (sn ≠ .alloc ∧ ∃ q, q.val = qa.toNat ∧ ((s.cpus c).qvec q).used = true ∧
          ∀ j, envId2env s.kern ((s.cpus c).qvec q).envid ≠ .ok j))
      (sysQuantumSet s cur sn k qa cpu envid) := by
  unfold sysQuantumSet
  dsimp only
  generalize he : (if sn ≠ .free ∧ envid ≠ 0 then _ else _ : Except Errno (Option (Fin nenv))) = e
  cases e with
  | error e => exact .inl rfl
  | ok e =>
  -- an environment that was looked up is the one `envid` names
  have hnamed : sn ≠ .free → (e = none ∧ envid = 0) ∨
      ∃ i, e = some i ∧ envId2env s.kern envid = .ok i := by
    intro hsn
    split at he
    · obtain ⟨i, hi, rfl⟩ := map_ok.mp he
      exact .inr ⟨i, rfl, hi⟩
    · rename_i hno
      cases he
      exact .inl ⟨rfl, by simpa [hsn] using hno⟩
  dsimp only
  split
  · exact .inl rfl
  rename_i cp _
  split
  · exact .inl rfl
  cases hc : s.cpucxt cpu with
  | none => exact .inr (by simp)
  | some c =>
  have hctx {P : Fin nrCpus → Prop} (h : P c) : ∀ c', some c = some c' → P c' := by
    rintro _ ⟨⟩
    exact h
  have hcheck := quantumCheck_gives (s := s) (c := c) qa cp.1
  have htake := quantumTake_gives (s := s) (c := c) qa cp.1
  cases sn with
  | alloc =>
    dsimp only
    generalize quantumTake s c qa cp.1 = o at htake ⊢
    rcases o with _ | ⟨_ | q, s₁⟩
    · exact .inr (hctx (htake.symm.imp_right fun hfull => .inl ⟨rfl, hfull⟩))
    · rcases htake with ⟨-, hs₁⟩ | ⟨q, hr, -⟩
      · exact .inl hs₁
      · cases hr
    rcases htake with ⟨⟨e, hr⟩, -⟩ | ⟨q', hr, hused, hs₁⟩
    · cases hr
    cases hr
    cases hs₁
    rcases hnamed (by simp) with ⟨rfl, h0⟩ | ⟨i, rfl, hi⟩
    · exact .inl ⟨by simp, h0⟩
    refine .inr ⟨c, q, .inl ⟨hused, i, cp.1, hi, ?_⟩⟩
    simp [Sched.put, Sched.modQ, Sched.modCpu, Sched.modQuanta]
  | set =>
    dsimp only [quantumDisown]
    generalize quantumCheck s c qa cp.1 = o at hcheck ⊢
    rcases o with _ | _ | q
    · exact .inr (hctx (.inl hcheck))
    · exact .inl rfl
    obtain ⟨hq, hused⟩ := hcheck q rfl
    dsimp only
    cases hj : envId2env s.kern ((s.cpus c).qvec q).envid with
    | error e => exact .inr (hctx (.inr (.inr ⟨by simp, q, hq, hused, by simp [hj]⟩)))
    | ok j =>
      rcases hnamed (by simp) with ⟨rfl, h0⟩ | ⟨i, rfl, hi⟩
      · exact .inl ⟨by simp, h0⟩
      refine .inr ⟨c, q, .inr ⟨hused, j, hj, .inl ⟨i, hi, ?_⟩⟩⟩
      simp [Sched.put, Sched.modQ, Sched.modCpu, Sched.modQuanta]
  | free =>
    dsimp only [quantumDisown]
    generalize quantumCheck s c qa cp.1 = o at hcheck ⊢
    rcases o with _ | _ | q
    · exact .inr (hctx (.inl hcheck))
    · exact .inl rfl
    obtain ⟨hq, hused⟩ := hcheck q rfl
    dsimp only
    cases hj : envId2env s.kern ((s.cpus c).qvec q).envid with
    | error e => exact .inr (hctx (.inr (.inr ⟨by simp, q, hq, hused, by simp [hj]⟩)))
    | ok j =>
      refine .inr ⟨c, q, .inr ⟨hused, j, hj, .inr ?_⟩⟩
      dsimp only
      rw [quantumFree_eq (by exact hused)]
      rfl

end

namespace QuantaOk

variable {s t : Sched}

/-- The other live environments have other ids, so `q` is in none of their maps. -/
theorem get_eq_false (h : QuantaOk s) {c : Fin nrCpus} {q : Fin nquantum} {i j : Fin nenv}
    (hi : (s.kern.envs i).status ≠ .free) (hj : (s.kern.envs j).status ≠ .free)
    (hij : i ≠ j) (hid : ((s.cpus c).qvec q).envid = (s.kern.envs j).id) :
    (s.quanta i c).get q = false := by
  by_contra hget
  have := (h.owner i hi c q).mp (by simpa using hget)
  exact hij (h.place.id_inj hi hj (this.2.symm.trans hid))

theorem sysQuantumSet (h : QuantaOk s) {cur : Fin nenv} {sn : QuantumSn}
    {k qa cpu envid : BitVec 32} {r : Except Errno (Fin nquantum)}
    (hcall : sysQuantumSet s cur sn k qa cpu envid = some (r, t)) : QuantaOk t := by
  rcases (sysQuantumSet_gives ..).some hcall with rfl | ⟨c, q, ⟨hused, i, cp, hi, rfl⟩ |
    ⟨hused, j, hj, ⟨i, hi, rfl⟩ | rfl⟩⟩
  · exact h
  · -- a quantum that was unused is in nobody's map
    have hnone : ∀ i', (s.kern.envs i').status ≠ .free → (s.quanta i' c).get q = false := by
      intro i' hi'
      by_contra hget
      have := (h.owner i' hi' c q).mp (by simpa using hget)
      simp [hused] at this
    obtain ⟨-, hlive, -⟩ := envId2env_ok_iff.mp hi
    refine h.put ((h.cpu c).nodup.erase q) (fun q' => ?_) (by simp) (fun i' hi' => ?_)
      fun i' c' q' hne => ?_
    · rw [(h.cpu c).nodup.mem_erase_iff]
      by_cases hq : q' = q <;> simp [hq]
    · rw [get_modQuanta, QuantaMap.get_set]
      by_cases hii : i' = i
      · simp [hii]
      have hid : (s.kern.envs i).id ≠ (s.kern.envs i').id := fun he =>
        hii (h.place.id_inj hi' hlive he.symm)
      simp [hii, hid, hnone i' hi']
    · rw [get_modQuanta, QuantaMap.get_set]
      grind
  · obtain ⟨-, hli, -⟩ := envId2env_ok_iff.mp hi
    obtain ⟨-, hlj, hidj⟩ := envId2env_ok_iff.mp hj
    have hlink := (h.cpu c).link_iff q
    refine h.put (h.cpu c).nodup (fun q' => ?_) (by simpa using hlink) (fun i' hi' => ?_)
      fun i' c' q' hne => ?_
    · by_cases hq : q' = q
      · subst hq; simp [(h.cpu c).free_iff]
      · simp [hq]
    · simp only [get_modQuanta, QuantaMap.get_set, QuantaMap.get_clear]
      by_cases hii : i' = i
      · simp [hii, hused]
      have hid : (s.kern.envs i).id ≠ (s.kern.envs i').id := fun he =>
        hii (h.place.id_inj hi' hli he.symm)
      by_cases hij : i' = j
      · subst hij; simp [hii, hid]
      · simp [hii, hij, hid, h.get_eq_false hi' hlj hij hidj.symm]
    · simp only [get_modQuanta, QuantaMap.get_set, QuantaMap.get_clear]
      grind
  · obtain ⟨-, hlj, hidj⟩ := envId2env_ok_iff.mp hj
    refine h.drop hused (fun i' hi' => ?_) fun i' c' q' hne => ?_
    · rw [get_modQuanta, QuantaMap.get_clear]
      by_cases hij : i' = j
      · simp [hij]
      · simp [hij, h.get_eq_false hi' hlj hij hidj.symm]
    · rw [get_modQuanta, QuantaMap.get_clear]
      grind

/-! ## 7. Environments come and go -/

theorem setKern (h : QuantaOk s) {k : Kernel}
    (hk : ∀ i, (k.envs i).status ≠ .free →
      (s.kern.envs i).status ≠ .free ∧ (k.envs i).id = (s.kern.envs i).id) :
    QuantaOk { s with kern := k } := by
  refine ⟨fun i hi => ?_, h.cpu, fun i hi c q => ?_⟩
  · obtain ⟨hlive, hid⟩ := hk i hi
    exact hid ▸ h.place i hlive
  · obtain ⟨hlive, hid⟩ := hk i hi
    simpa only [hid] using h.owner i hlive c q

end QuantaOk

theorem QuantaOk.envFree (h : QuantaOk s)
    (hfree : envFree s.kern i = some k) : QuantaOk { s with kern := k } := by
  refine h.setKern fun j hj => ?_
  by_cases hji : j = i
  · subst hji
    exact absurd (envFree_status hfree) hj
  · rw [(envFree_onlyEnv hfree).others j hji] at hj ⊢
    exact ⟨hj, rfl⟩

theorem QuantaOk.schedInv : SchedInv QuantaOk where
  frame hf h :=
    h.same (by rw [hf.kern]) hf.quanta hf.list (fun c q => ⟨_, by rw [hf.qvec]⟩)
      fun c => by rw [hf.curq]; exact (h.cpu c).curq
  next c h := by
    unfold nextQuantum
    split
    · exact (h.moreTicks c).setCurq c (by decide)
    · rename_i hne
      exact h.setCurq c hne
  collect _ _ _ hstale h := h.quantumFree_stale hstale
  kill _ hfree h := h.envFree hfree

/-- A call that creates an environment changes at most the first free one, which then
    has a new id. -/
theorem sysEnvAlloc_cases {k' : Kernel} {cur : Fin nenv} {clone : Bool} {kcap : BitVec 32}
    {junk : Uenv} {r : Except Errno (BitVec 32)}
    (h : sysEnvAlloc k cur clone kcap junk = some (r, k')) :
    (envAllocSlot k cur kcap = none ∧ k' = k) ∨
      ∃ i, envAllocSlot k cur kcap = some i ∧ (∀ j, j ≠ i → k'.envs j = k.envs j) ∧
        (k'.envs i).id = k.newEnvId i := by
  unfold sysEnvAlloc at h
  unfold envAllocSlot
  cases hcap : envGetcap (k.envs cur) kcap with
  | error e =>
    simp only [hcap, some.injEq, Prod.mk.injEq] at h
    exact .inl ⟨rfl, h.2.symm⟩
  | ok c =>
  simp only [hcap] at h ⊢
  split at h
  · rename_i hperm
    cases h
    exact .inl ⟨if_pos hperm, rfl⟩
  rename_i hperm
  rw [if_neg hperm]
  obtain ⟨⟨r₁, k₁⟩, h₁, h⟩ := map_eq_some_iff.mp h
  rcases envNew_fresh h₁ with ⟨rfl, hlist⟩ | ⟨i, hfresh, hr⟩
  · cases r₁ with
    | error e =>
      cases h
      exact .inl ⟨by simp [hlist], rfl⟩
    | ok i =>
      -- nobody was free, and yet somebody was found
      split at h₁
      · simp [envClone, envAlloc, hlist] at h₁
      · simp [envAlloc, hlist] at h₁
  · refine .inr ⟨i, hfresh.head, ?_⟩
    cases r₁ with
    | error e =>
      cases h
      exact ⟨hfresh.others, hfresh.id⟩
    | ok i' =>
      obtain rfl := hr i' rfl
      cases h
      rw [setCapUarea_envs]
      refine ⟨fun j hj => ?_, ?_⟩
      · simpa [Kernel.modEnv, hj] using hfresh.others j hj
      · simpa [Kernel.modEnv, Env.setCap, Kernel.newEnvId] using hfresh.id

theorem envidx_newEnvId (k : Kernel) (i : Fin nenv) : envidx (k.newEnvId i) = i := by
  have hi : i.val < 1024 := i.isLt
  have hmod : (k.newEnvId i &&& 1023).toNat = i.val := by
    unfold Kernel.newEnvId
    rw [toNat_and, show (1023 : BitVec 32).toNat = 2 ^ 10 - 1 from rfl,
      Nat.and_two_pow_sub_one_eq_mod, toNat_or, Nat.or_mod_two_pow,
      toNat_shiftLeft, Nat.shiftLeft_eq, toNat_ofNat]
    have hzero : k.nextEnvId.toNat * 2 ^ 11 % 2 ^ 32 % 2 ^ 10 = 0 := by omega
    have hself : i.val % 2 ^ 32 % 2 ^ 10 = i.val := by omega
    rw [hzero, hself, Nat.zero_or]
  apply Fin.ext
  simp only [envidx, hmod, Fin.val_ofNat]
  exact Nat.mod_eq_of_lt i.isLt

/-- No quantum in use names the environment that is about to be created in place `i`. -/
def Sched.FreshId (s : Sched) (i : Fin nenv) : Prop :=
  ∀ c q, ((s.cpus c).qvec q).used = true → ((s.cpus c).qvec q).envid ≠ s.kern.newEnvId i

namespace QuantaOk

variable {s t : Sched} {c : Fin nrCpus} {wake : Nat → Fin nenv → BitVec 32}

theorem sysEnvAlloc (h : QuantaOk s) {cur : Fin nenv} {clone : Bool} {kcap : BitVec 32}
    {junk : Uenv} {ua : Uarea}
    (hfresh : ∀ i, envAllocSlot s.kern cur kcap = some i → s.FreshId i)
    (hcall : s.sysEnvAlloc cur clone kcap junk ua = some t) : QuantaOk t := by
  obtain ⟨⟨r, k⟩, hk, rfl⟩ := map_eq_some_iff.mp hcall
  rcases sysEnvAlloc_cases hk with ⟨hslot, rfl⟩ | ⟨i, hslot, hothers, hid⟩
  · simpa [hslot] using h
  simp only [hslot]
  refine ⟨fun j hj => ?_, h.cpu, fun j hj c q => ?_⟩
  · by_cases hji : j = i
    · subst hji
      change envidx (k.envs j).id = j
      rw [hid, envidx_newEnvId]
    change (k.envs j).status ≠ .free at hj
    change envidx (k.envs j).id = j
    rw [hothers j hji] at hj ⊢
    exact h.place j hj
  · by_cases hji : j = i
    · subst hji
      change (update s.quanta j (fun _ _ => 0) j c).get q = true ↔ _ ∧ _ = (k.envs j).id
      have hempty : QuantaMap.get (fun _ => 0) q = false := by simp [QuantaMap.get]
      rw [update_self, hid, hempty]
      simpa using hfresh j hslot c q
    · change (k.envs j).status ≠ .free at hj
      change (update s.quanta i (fun _ _ => 0) j c).get q = true ↔ _ ∧ _ = (k.envs j).id
      rw [hothers j hji] at hj ⊢
      rw [update_of_ne hji]
      exact h.owner j hj c q

theorem setTicks (h : QuantaOk s) (q : Fin nquantum) (f : BitVec 32 → BitVec 32) :
    QuantaOk (s.modQ c q fun qt => { qt with ticks := f qt.ticks }) := by
  refine h.same rfl rfl (fun c' => ?_) (fun c' q' => ?_) fun c' => ?_
  all_goals rw [Sched.modQ, Sched.modCpu_cpus]
  · split <;> rfl
  · split
    · by_cases hq : q' = q
      · subst hq
        exact ⟨_, by simp only [update_self]; rfl⟩
      · exact ⟨((s.cpus c').qvec q').ticks, by simp [hq]⟩
    · exact ⟨_, rfl⟩
  · split <;> exact (h.cpu c').curq

theorem schedIntr (h : QuantaOk s) (hcall : schedIntr s c wake = some t) : QuantaOk t := by
  unfold Exokernel.schedIntr at hcall
  split at hcall
  · cases hcall
  split at hcall
  · split at hcall
    · obtain ⟨k, hfree, hcall⟩ := bind_eq_some_iff.mp hcall
      refine schedInv.schedRunnext (schedInv.frame ?_ (h.envFree hfree)) hcall
      exact .modCpu _ c fun _ => ⟨rfl, rfl, rfl⟩
    · cases hcall
      exact schedInv.frame (.setQx ..) h
  · split at hcall
    · exact schedInv.revokeProcessor (h.setTicks _ fun _ => 0) hcall
    · cases hcall
      exact h.setTicks _ fun n => n - 1

end QuantaOk

/-! ## 8. Runs -/

/-- The owner of the quantum that the arguments name, if it is in use, is alive. -/
def Sched.OwnerLive (s : Sched) (q cpu : BitVec 32) : Prop :=
  ∀ c q', s.cpucxt cpu = some c → q'.val = q.toNat → ((s.cpus c).qvec q').used = true →
    ∃ i, envId2env s.kern ((s.cpus c).qvec q').envid = .ok i

/-- Every processor, quantum and environment the operation goes through is there. -/
def SchedOp.Sound (s : Sched) (c : Fin nrCpus) : SchedOp → Prop
  | .quantum .alloc _ q cpu envid =>
    envid ≠ 0 ∧ ∃ c', s.cpucxt cpu = some c' ∧ (q = -1 → (s.cpus c').qfreelist ≠ [])
  | .quantum .set _ q cpu envid => envid ≠ 0 ∧ (s.cpucxt cpu).isSome ∧ s.OwnerLive q cpu
  | .quantum .free _ q cpu _ => (s.cpucxt cpu).isSome ∧ s.OwnerLive q cpu
  | .envAlloc _ kcap _ _ =>
    ∀ cur i, (s.cpus c).curenv = some cur → envAllocSlot s.kern cur kcap = some i → s.FreshId i
  | _ => True

theorem QuantaOk.exec {t : Sched} {op : SchedOp} (h : QuantaOk s)
    (hok : op.Sound s c) (hexec : op.exec s c = some t) : QuantaOk t := by
  obtain ⟨cur, hcur, hexec⟩ := bind_eq_some_iff.mp hexec
  cases op with
  | quantum sn k q cpu envid =>
    obtain ⟨⟨r, s₁⟩, hcall, rfl⟩ := map_eq_some_iff.mp hexec
    exact h.sysQuantumSet hcall
  | envAlloc clone kcap junk ua => exact h.sysEnvAlloc (fun i hi => hok cur i hcur hi) hexec
  | envFree kcap envid wake => exact schedInv.sysEnvFree h hexec
  | yield wake => exact schedInv.schedRunnext h hexec
  | yields wake => exact schedInv.yields h hexec
  | fastyield wake => exact schedInv.fastyield h hexec
  | intr wake => exact h.schedIntr hexec
  | store ua =>
    cases hexec
    exact schedInv.frame (.modUarea ..) h
  | reschedule envid =>
    cases hexec
    split
    · exact schedInv.frame (.setReschedule ..) h
    · exact h

/-! ### No null pointers -/

section
variable {s : Sched} {c : Fin nrCpus}

theorem sysQuantumSet_isSome (h : QuantaOk s) {cur : Fin nenv} {sn : QuantumSn}
    {k q cpu envid : BitVec 32} {c₀ : Fin nrCpus}
    (hok : (SchedOp.quantum sn k q cpu envid).Sound s c₀) :
    (sysQuantumSet s cur sn k q cpu envid).isSome := by
  refine (sysQuantumSet_gives cur sn k q cpu envid).isSome ?_
  -- the links are right, and the operation says where it goes
  have hlink : ∀ c, ¬BadLink s c := fun c ⟨q, hq⟩ => hq ((h.cpu c).link_iff q)
  rintro (⟨hfree, h0⟩ | hno)
  · cases sn with
    | alloc => exact hok.1 h0
    | set => exact hok.1 h0
    | free => exact hfree rfl
  have howner (hsn : sn ≠ .alloc) (hcpu : (s.cpucxt cpu).isSome) (hlive : s.OwnerLive q cpu) :
      False := by
    obtain ⟨c, hc⟩ := isSome_iff_exists.mp hcpu
    rcases hno c hc with hbad | ⟨halloc, -⟩ | ⟨-, q', hq, hused, hdead⟩
    · exact hlink c hbad
    · exact hsn halloc
    · obtain ⟨j, hj⟩ := hlive c q' hc hq hused
      exact hdead j hj
  cases sn with
  | alloc =>
    obtain ⟨-, c, hc, hroom⟩ := hok
    rcases hno c hc with hbad | ⟨-, hq, hl⟩ | ⟨hne, -⟩
    · exact hlink c hbad
    · exact hroom hq hl
    · exact hne rfl
  | set => exact howner nofun hok.2.1 hok.2.2
  | free => exact howner nofun hok.1 hok.2

end

/-- `sched_runnext` always finds something to run, the idle environment if nothing
    else. -/
theorem schedRunnext_isSome (hcurq : (s.cpus c).curq ≠ 0)
    (wake : Nat → Fin nenv → BitVec 32) : (schedRunnext s c wake).isSome := by
  obtain ⟨ran, t, hf, heq, -⟩ := schedRunnext_start s c wake
  rw [heq]
  cases ran with
  | true => rfl
  | false =>
    rw [← hf.curq] at hcurq ⊢
    obtain ⟨t', ht', -⟩ := Scanning.runLoop wake hcurq nquantum rfl (by decide)
      (by decide) (.start (.refl t) (fun _ => rfl) rfl hcurq) (fun m hm hm' => by omega)
    exact Option.isSome_of_eq_some ht'

/-! ### Every run -/

theorem schedInit_quantaOk (hk : k.InPlace) (present : Fin nrCpus → Bool)
    (uarea : Fin nenv → Uarea) : QuantaOk (schedInit k present uarea) := by
  refine ⟨hk, fun c => ⟨?_, fun q => ?_, fun q => ?_, ?_⟩, fun i _ c q => ?_⟩
  · exact List.nodup_reverse.mpr (List.nodup_finRange _)
  · simp [schedInit, CpuContext.init]
  · simp [schedInit, CpuContext.init]
  · change (1 : Fin nquantum) ≠ 0
    decide
  · simp [schedInit, CpuContext.init, QuantaMap.get]

/-- A run of the scheduler in which every operation, on whatever processor, meets `ok`. -/
def SchedOp.Run (ok : Sched → Fin nrCpus × SchedOp → Prop) : Sched → Sched → Prop :=
  Run.Reaches (fun s (x : Fin nrCpus × SchedOp) t => x.2.exec s x.1 = some t) ok

/-- In every run from boot in which each operation goes through processors, quanta and
    environments that are there, the free lists hold exactly the unused quanta, the
    maps of the live environments and the quanta agree on who owns what, and neither
    the quantum calls nor the scheduler follows a null pointer. -/
theorem quanta_agree {k : Kernel} {present : Fin nrCpus → Bool} {uarea : Fin nenv → Uarea}
    {s : Sched} (hk : k.InPlace)
    (hrun : SchedOp.Run (fun s x => x.2.Sound s x.1) (schedInit k present uarea) s) :
    (∀ c q, q ∈ (s.cpus c).qfreelist ↔ ((s.cpus c).qvec q).used = false) ∧
    (∀ i, (s.kern.envs i).status ≠ .free → ∀ c q, (s.quanta i c).get q = true ↔
        ((s.cpus c).qvec q).used = true ∧ ((s.cpus c).qvec q).envid = (s.kern.envs i).id) ∧
    (∀ c cur sn k q cpu envid, (SchedOp.quantum sn k q cpu envid).Sound s c →
      (sysQuantumSet s cur sn k q cpu envid).isSome) ∧
    ∀ c wake, (schedRunnext s c wake).isSome := by
  have hs : QuantaOk s :=
    hrun.invariant (schedInit_quantaOk hk present uarea) fun s x t h hok hexec => h.exec hok hexec
  exact ⟨fun c => (hs.cpu c).free_iff, hs.owner,
    fun c cur sn k q cpu envid hok => sysQuantumSet_isSome hs hok,
    fun c wake => schedRunnext_isSome (hs.cpu c).curq wake⟩

theorem threeEnvs_inPlace : threeEnvs.InPlace := by
  intro i hi
  by_cases h3 : i.val < 3
  · have hi3 : i = 0 ∨ i = 1 ∨ i = 2 := by
      have h : i.val = 0 ∨ i.val = 1 ∨ i.val = 2 := by omega
      rcases h with h | h | h
      · exact .inl (Fin.ext h)
      · exact .inr (.inl (Fin.ext h))
      · exact .inr (.inr (Fin.ext h))
    rcases hi3 with rfl | rfl | rfl <;> rfl
  · exact absurd (show (threeEnvs.envs i).status = .free by simp [threeEnvs, h3, Env.zero]) hi

/-- After process 0 has given quantum 2 to environment 1, the free list, the maps and
    the quanta agree. -/
theorem quanta_agree_alloc :
    ∃ s, SchedOp.exec threeEnvsSched 0 (.quantum .alloc 0 2 0 0x801) = some s ∧
      ∀ q, (s.quanta 1 0).get q = true ↔
        ((s.cpus 0).qvec q).used = true ∧ ((s.cpus 0).qvec q).envid = (s.kern.envs 1).id := by
  have hsome : (SchedOp.exec threeEnvsSched 0 (.quantum .alloc 0 2 0 0x801)).isSome = true := rfl
  obtain ⟨s, hs⟩ := isSome_iff_exists.mp hsome
  have hsound : (SchedOp.quantum .alloc 0 2 0 0x801).Sound threeEnvsSched 0 :=
    ⟨by decide, 0, rfl, fun h => absurd h (by decide)⟩
  have hrun : SchedOp.Run (fun s x => x.2.Sound s x.1) threeEnvsSched s :=
    Run.Reaches.call (i := (0, _)) .refl hsound hs
  have hkern : (s.kern.envs 1).status ≠ .free := by
    have : (SchedOp.exec threeEnvsSched 0 (.quantum .alloc 0 2 0 0x801)).map
        (fun s => (s.kern.envs 1).status) = some .ok := rfl
    rw [hs] at this
    simp [some.inj this]
  exact ⟨s, hs, (quanta_agree threeEnvs_inPlace hrun).2.1 1 hkern 0⟩

/-- A quantum for nobody, which the comment on `sys_quantum_alloc` allows: right after
    boot the call writes the map of environment null. -/
theorem quantum_for_nobody :
    (threeEnvsSched.cpus 0).curenv = some 0 ∧
      (sysQuantumSet threeEnvsSched 0 .alloc 0 (-1) 0 0).isNone = true :=
  ⟨rfl, rfl⟩

end Exokernel
