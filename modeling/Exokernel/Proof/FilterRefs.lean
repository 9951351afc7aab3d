import Exokernel.Dpf.Refs
import Exokernel.Kern.Boot
import Exokernel.Lib.Outcome
import Exokernel.Lib.Run
import Exokernel.Lib.Tally

/-!
# References to filters are counted

Four structures say who holds a filter: the bits of `refs`, the counts of `refcnt`, the
stored capabilities and the trie. They are changed by insertions, by further references,
by deletions and by the death of an environment.

**They agree as long as nobody refers to a filter twice, or to one that is gone.**
`dpf_add_ref` counts a reference whether or not its bit was set, and the capability of a
filter stays in its slot when the filter is taken out, so `sys_dpf_ref` still grants
references to it. The calls also look at entry 256 of tables that end at 255.
-/
set_option autoImplicit false

namespace Exokernel.Dpf

open Function Outcome Tally

/-! ## 1. Ids -/

/-- The filter with id `i` is in the trie. -/
def Filters.InTrie (s : Filters) (i : Fin nfilter) : Prop := (s.dpf.active i).isSome

/-- Ids that may be handed out are below `DPF_MAXFILT`, above 0, and of no filter. -/
structure TrieState.IdsOk (d : TrieState) : Prop where
  nodup : d.freePids.Nodup
  free : ∀ p ∈ d.freePids, 0 < p ∧ p < d.highwater ∧ d.active p = none
  pos : 0 < d.highwater
  le : d.highwater ≤ maxfilt
  active : ∀ p, (d.active p).isSome → 0 < p ∧ p < d.highwater

theorem TrieState.init_idsOk : TrieState.init.IdsOk where
  nodup := List.nodup_nil
  free := by simp [TrieState.init]
  pos := by decide
  le := by decide
  active := by simp [TrieState.init]

variable {d d' : TrieState} {p : Nat}

/-- A new id is in range, is not 0 and is of no filter, and is then nowhere among the
    free ones. -/
theorem dpfAllocpid_some (hd : d.IdsOk) (h : dpfAllocpid d = (some p, d')) :
    0 < p ∧ p < maxfilt ∧ d.active p = none ∧ p ∉ d'.freePids ∧ p < d'.highwater
      ∧ d'.active = d.active ∧ d'.IdsOk := by
  unfold dpfAllocpid at h
  split at h
  · rename_i q ps hps
    obtain ⟨rfl, rfl⟩ : q = p ∧ { d with freePids := ps } = d' := by simpa using h
    have hnd := hd.nodup
    rw [hps] at hnd
    obtain ⟨hpos, hlt, hact⟩ := hd.free q (by simp [hps])
    have hle := hd.le
    refine ⟨hpos, by omega, hact, (List.nodup_cons.mp hnd).1, hlt, rfl, ?_⟩
    exact ⟨(List.nodup_cons.mp hnd).2, fun r hr => hd.free r (by simp [hps, hr]), hd.pos, hd.le,
      hd.active⟩
  · rename_i hps
    split at h
    · simp at h
    rename_i hroom
    obtain ⟨rfl, rfl⟩ : d.highwater = p ∧ { d with highwater := d.highwater + 1 } = d' := by
      simpa using h
    have hnone : d.active d.highwater = none := by
      by_contra hne
      have := hd.active _ (Option.isSome_iff_ne_none.mpr hne)
      omega
    refine ⟨hd.pos, by omega, hnone, by simp [hps], by simp, rfl, ?_⟩
    refine ⟨hd.nodup, by simp [hps], by simp, by simp; omega, fun q hq => ?_⟩
    obtain ⟨hq0, hqlt⟩ := hd.active q hq
    exact ⟨hq0, Nat.lt_succ_of_lt hqlt⟩

theorem dpfAllocpid_none (h : dpfAllocpid d = (none, d')) : d' = d := by
  unfold dpfAllocpid at h
  split at h
  · simp at h
  · split at h <;> simp_all

theorem dpfDrop_ok {a : Ptr} {overlap : Bool} (hd : d.IdsOk)
    (hp : 0 < p) (hlt : p < d.highwater) (hfree : p ∉ d.freePids)
    (h : dpfDrop d p a overlap = .ok d') :
    d'.active = update d.active p none ∧ d'.IdsOk := by
  unfold dpfDrop at h
  split at h
  · cases h
  cases h
  refine ⟨rfl, List.nodup_cons.mpr ⟨hfree, hd.nodup⟩, fun q hq => ?_, hd.pos, hd.le, fun q hq => ?_⟩
  · rcases List.mem_cons.mp hq with rfl | hq
    · exact ⟨hp, hlt, by simp [dpfFreepid]⟩
    obtain ⟨hq0, hqlt, hqa⟩ := hd.free q hq
    have hne : q ≠ p := fun he => hfree (he ▸ hq)
    exact ⟨hq0, hqlt, by simp [dpfFreepid, update_of_ne hne, hqa]⟩
  · by_cases hqp : q = p
    · simp [dpfFreepid, hqp] at hq
    · exact hd.active q (by simpa [dpfFreepid, update_of_ne hqp] using hq)

theorem dpfDelete_ok {r : Except DpfErr Nat} (hd : d.IdsOk)
    (hp : p < maxfilt) (h : dpfDelete d p = .ok (r, d')) :
    d'.active = update d.active p none ∧ d'.IdsOk := by
  unfold dpfDelete at h
  rw [if_neg (by omega)] at h
  split at h
  · rename_i hnone
    cases h
    exact ⟨by rw [← hnone, update_eq_self], hd⟩
  rename_i a ha
  have hact : (d.active p).isSome := by simp [ha]
  split at h
  · cases h
  rename_i hdrop
  cases h
  obtain ⟨hpos, hlt⟩ := hd.active p hact
  refine dpfDrop_ok hd hpos hlt (fun hmem => ?_) hdrop
  simp [(hd.free p hmem).2.2] at ha

/-- `dpf_insert` either fails and leaves the filters as they are, or adds one under an
    id that had none. -/
theorem dpfInsert_ok {irs : List Ir} {r : Except DpfErr Nat} (hd : d.IdsOk)
    (h : dpfInsert d irs = .ok (r, d')) :
    d'.IdsOk ∧ ((∃ e, r = .error e) ∧ d'.active = d.active ∨
      ∃ p a, r = .ok p ∧ 0 < p ∧ p < maxfilt ∧ d.active p = none
        ∧ d'.active = update d.active p (some a)) := by
  unfold dpfInsert at h
  split at h
  · rename_i hnone
    cases h
    rw [dpfAllocpid_none hnone]
    exact ⟨hd, .inl ⟨⟨_, rfl⟩, rfl⟩⟩
  rename_i p d₁ halloc
  obtain ⟨hpos, hlt, hact, hfree, hhw, hsame, hd₁⟩ := dpfAllocpid_some hd halloc
  split at h
  · cases h
    exact ⟨hd₁, .inl ⟨⟨_, rfl⟩, hsame⟩⟩
  split at h
  · cases h
    exact ⟨hd₁, .inl ⟨⟨_, rfl⟩, hsame⟩⟩
  split at h
  · cases h
    exact ⟨hd₁, .inl ⟨⟨_, rfl⟩, hsame⟩⟩
  split at h
  · cases h
  rename_i tail overlap heap hmerge
  -- the trie has the filter now; an overlap takes it out again
  have hd₂ : TrieState.IdsOk { d₁ with heap, active := update d₁.active p (some tail) } := by
    refine ⟨hd₁.nodup, fun q hq => ?_, hd₁.pos, hd₁.le, fun q hq => ?_⟩
    · have hne : q ≠ p := fun he => hfree (he ▸ hq)
      obtain ⟨hq0, hqlt, hqa⟩ := hd₁.free q hq
      exact ⟨hq0, hqlt, by simp [update_of_ne hne, hqa]⟩
    by_cases hqp : q = p
    · exact ⟨hqp ▸ hpos, hqp ▸ hhw⟩
    · exact hd₁.active q (by simpa [update_of_ne hqp] using hq)
  simp only at h
  split at h
  · split at h
    · cases h
    rename_i d₃ hdrop
    cases h
    obtain ⟨hact₃, hok₃⟩ := dpfDrop_ok hd₂ hpos hhw hfree hdrop
    refine ⟨hok₃, .inl ⟨⟨_, rfl⟩, ?_⟩⟩
    rw [hact₃, update_idem, hsame, ← hact, update_eq_self]
  · cases h
    exact ⟨hd₂, .inr ⟨p, tail, rfl, hpos, hlt, hact, by simp only [hsame]⟩⟩

/-! ## 2. Calls -/

/-- Everything that changes the tables. -/
inductive Call where
  | insert (u : Caller) (kdpf k : BitVec 32) (mem : Bool) (irs : List Ir) (usering : BitVec 32)
  | ref (u : Caller) (k fid : BitVec 32)
  | delete (u : Caller) (k fid : BitVec 32)
  | death (envid : BitVec 32)

/-- The tables after a call, whatever it returned. -/
def Call.exec (s : Filters) : Call → Except Stop Filters
  | .insert u kdpf k mem irs usering => (sysDpfInsert s u kdpf k mem irs usering).map (·.2)
  | .ref u k fid => (sysDpfRef s u k fid).map (·.2)
  | .delete u k fid => (sysDpfDelete s u k fid).map (·.2)
  | .death envid => dpfDelEnv s envid

def Filters.step (s : Filters) (c : Call) (s' : Filters) : Prop := c.exec s = .ok s'

/-- The calls that keep the count right: no call names id 256, and whoever is granted a
    further reference asks for a filter that is there and that it does not hold yet. -/
def Call.Sound (s : Filters) : Call → Prop
  | .ref u k fid => fid.toNat ≠ nfilter ∧ ∀ (i : Fin nfilter) (e : Env), fid.toNat = i →
      dpfAccess s u k fid.toNat = .ok (.ok e) → s.InTrie i ∧ s.refs i (envidx e.id) = false
  | .delete _ _ fid => fid.toNat ≠ nfilter
  | .insert .. | .death _ => True

/-! ## 3. What holds in every state -/

/-- The four structures agree. -/
structure Filters.Counted (s : Filters) : Prop where
  ids : s.dpf.IdsOk
  count : ∀ i, (s.refcnt i).toNat = tally (s.refs i)
  trie : ∀ i, s.InTrie i ↔ 0 < tally (s.refs i)

theorem dpfInitRefs_counted : dpfInitRefs.Counted := by
  have h0 : ∀ i, tally (dpfInitRefs.refs i) = 0 := fun i => tally_eq_zero.mpr fun _ => rfl
  refine ⟨TrieState.init_idsOk, fun i => (h0 i).symm, fun i => ?_⟩
  rw [h0 i]
  exact ⟨fun h => absurd h (by simp [Filters.InTrie, dpfInitRefs, TrieState.init]),
    fun h => absurd h (Nat.lt_irrefl 0)⟩

section Steps

variable {s s' : Filters}

/-- A count of references fits in its word with room to spare. -/
theorem Filters.Counted.small (h : s.Counted) (i : Fin nfilter) : (s.refcnt i).toNat ≤ 1024 := by
  rw [h.count i]
  exact tally_le_card.trans (by simp)

theorem Filters.Counted.toNat_succ (h : s.Counted) (i : Fin nfilter) :
    (s.refcnt i + 1).toNat = (s.refcnt i).toNat + 1 := by
  have hsmall := h.small i
  bv_omega

/-- A bit changes and the count goes with it, in a filter that is in the trie if it is held. -/
theorem Filters.Counted.setRef {i : Fin nfilter} {j : Fin nenv} {b : Bool} {n : BitVec 32}
    {d : TrieState} {caps ringvals} (h : s.Counted) (hids : d.IdsOk)
    (hn : n.toNat + (s.refs i j).toNat = (s.refcnt i).toNat + b.toNat)
    (hi : (d.active i).isSome ↔ 0 < n.toNat)
    (hrest : ∀ i', i' ≠ i → d.active i' = s.dpf.active i') :
    Filters.Counted
      { refs := update s.refs i (update (s.refs i) j b)
        refcnt := update s.refcnt i n
        caps, ringvals, dpf := d } := by
  have htally : n.toNat = tally (update (s.refs i) j b) := by
    have hbits := tally_update (s.refs i) j b
    have hcount := h.count i
    omega
  refine ⟨hids, fun i' => ?_, fun i' => ?_⟩
  · by_cases hi' : i' = i
    · subst hi'
      simpa using htally
    · simpa [update_of_ne hi'] using h.count i'
  · by_cases hi' : i' = i
    · subst hi'
      simpa [Filters.InTrie, ← htally] using hi
    · simpa [Filters.InTrie, update_of_ne hi', hrest i' hi'] using h.trie i'

variable {envid fid k : BitVec 32} {u : Caller}

/-- What a call leaves if it returns. If it does not, the trie has trapped: it has looked at nothing
    outside the tables. -/
def Kept {α : Type} (p : α → Prop) : Except Stop α → Prop := Ends p fun t => ∃ e, t = .trie e

theorem ofTrie_kept {α : Type} (x : Except Trap α) : Kept (fun a => x = .ok a) (ofTrie x) := by
  cases x with
  | error t => exact ⟨t, rfl⟩
  | ok a => exact rfl

/-- `dpf_del_ref`: with the last reference the filter goes. -/
theorem Filters.Counted.delRef (h : s.Counted) {fid : Nat} (hlt : fid < nfilter) :
    Kept Filters.Counted (dpfDelRef s fid envid) := by
  unfold dpfDelRef entry
  rw [dif_pos hlt]
  by_cases hbit : s.refs ⟨fid, hlt⟩ (envidx envid) = false
  · simp only [bind, Except.bind, hbit, if_true]
    exact h
  rw [Bool.not_eq_false] at hbit
  have hheld := tally_pos hbit
  have hcount := h.count ⟨fid, hlt⟩
  have hone : (s.refcnt ⟨fid, hlt⟩ - 1).toNat + (s.refs ⟨fid, hlt⟩ (envidx envid)).toNat =
      (s.refcnt ⟨fid, hlt⟩).toNat := by
    rw [hbit, Bool.toNat_true]
    bv_omega
  simp only [bind, Except.bind, hbit, Bool.true_eq_false, if_false, update_self]
  split
  · rename_i hlast
    refine (ofTrie_kept _).bind fun (r, d) hd => ?_
    obtain ⟨hact, hids⟩ := dpfDelete_ok h.ids hlt hd
    refine h.setRef hids hone ?_ fun i' hi' => ?_
    · rw [hlast]
      simp [hact]
    · have hne : i'.val ≠ fid := fun he => hi' (Fin.ext he)
      rw [hact, update_of_ne hne]
  · rename_i hmore
    exact h.setRef h.ids hone (iff_of_true ((h.trie _).mpr hheld) (by bv_omega)) fun _ _ => rfl

/-- `dpf_del_env`. The induction is over the ids that are left. -/
theorem Filters.Counted.delEnv (is : List (Fin nfilter)) (h : s.Counted) :
    Kept Filters.Counted (delEnvLoop envid is s) := by
  induction is generalizing s with
  | nil => exact h
  | cons i is ih =>
    rw [delEnvLoop]
    split
    · exact (h.delRef i.isLt).bind fun s₁ h₁ => ih h₁
    · exact ih h

/-! ## 4. The system calls -/

/-- `sys_dpf_insert`: a new filter starts with one reference. -/
theorem Filters.Counted.insert (h : s.Counted) {kdpf usering : BitVec 32} {mem : Bool}
    {irs : List Ir} :
    Kept (fun rs => rs.2.Counted) (sysDpfInsert s u kdpf k mem irs usering) := by
  unfold sysDpfInsert
  split
  · exact h
  split
  · exact h
  split
  · exact h
  split
  · exact h
  split
  · exact h
  refine (ofTrie_kept _).bind fun (r, d) hd => ?_
  obtain ⟨hids, ⟨⟨e, rfl⟩, hact⟩ | ⟨p, a, rfl, hpos, hlt, hnone, hact⟩⟩ := dpfInsert_ok h.ids hd
  · exact ⟨hids, h.count, fun i => by simpa [Filters.InTrie, hact] using h.trie i⟩
  have hlt' : p < nfilter := hlt
  -- a fresh id has no references, so the count goes from 0 to 1
  have hbits : ∀ j, s.refs ⟨p, hlt'⟩ j = false := by
    rw [← tally_eq_zero]
    by_contra hne
    have := (h.trie ⟨p, hlt'⟩).mpr (Nat.pos_of_ne_zero hne)
    simp [Filters.InTrie, hnone] at this
  have hcond : (decide (nfilter ≤ p) || decide (p = 0)) = false := by
    simp only [Bool.or_eq_false_iff, decide_eq_false_iff_not]
    omega
  simp only [hcond, Bool.false_eq_true, if_false, entry, dif_pos hlt', dpfAddRef]
  refine h.setRef hids (by rw [h.toNat_succ, hbits]; rfl)
    (iff_of_true (by simp [hact]) (h.toNat_succ _ ▸ Nat.succ_pos _)) fun i' hi' => ?_
  have hne : i'.val ≠ p := fun he => hi' (Fin.ext he)
  rw [hact, update_of_ne hne]

/-- What the checks of `sys_dpf_ref` and `sys_dpf_delete` look at. -/
theorem dpfAccess_kept {fid : Nat} (hlt : fid < nfilter) :
    Kept (fun r => dpfAccess s u k fid = .ok r) (dpfAccess s u k fid) := by
  cases ha : dpfAccess s u k fid with
  | ok r => exact rfl
  | error t =>
    unfold dpfAccess entry at ha
    rw [dif_pos hlt] at ha
    split at ha
    · cases ha
    split at ha
    · cases ha
    · simp only [bind, Except.bind] at ha
      split at ha <;> cases ha

theorem Filters.Counted.delete (h : s.Counted) (hfid : fid.toNat ≠ nfilter) :
    Kept (fun rs => rs.2.Counted) (sysDpfDelete s u k fid) := by
  unfold sysDpfDelete
  split
  · exact h
  have hlt : fid.toNat < nfilter := by omega
  refine (dpfAccess_kept hlt).bind fun re _ => ?_
  cases re with
  | error r => exact h
  | ok e => exact (h.delRef hlt).bind fun _ h₁ => h₁

/-- `sys_dpf_ref`, of a filter that is there and that the environment does not hold. -/
theorem Filters.Counted.ref (h : s.Counted) (hsound : (Call.ref u k fid).Sound s) :
    Kept (fun rs => rs.2.Counted) (sysDpfRef s u k fid) := by
  obtain ⟨hfid, hsound⟩ := hsound
  unfold sysDpfRef
  split
  · exact h
  have hlt : fid.toNat < nfilter := by omega
  refine (dpfAccess_kept hlt).bind fun re ha => ?_
  cases re with
  | error r => exact h
  | ok e =>
    obtain ⟨htrie, hbit⟩ := hsound ⟨fid.toNat, hlt⟩ e rfl ha
    simp only [dpfAddRef, dif_pos hlt]
    exact h.setRef h.ids (by rw [h.toNat_succ, hbit]; rfl)
      (iff_of_true htrie (h.toNat_succ _ ▸ Nat.succ_pos _)) fun _ _ => rfl

/-- **One call** keeps the four structures in step. -/
theorem Filters.Counted.exec {c : Call} (h : s.Counted) (hsound : c.Sound s) :
    Kept Filters.Counted (c.exec s) := by
  cases c with
  | insert u kdpf k mem irs usering => exact h.insert.map fun _ h₁ => h₁
  | ref u k fid => exact (h.ref hsound).map fun _ h₁ => h₁
  | delete u k fid => exact (h.delete hsound).map fun _ h₁ => h₁
  | death envid => exact h.delEnv _

theorem Filters.Counted.step {c : Call} (h : s.Counted) (hsound : c.Sound s) (hs : s.step c s') :
    s'.Counted := by
  have hkept := h.exec hsound
  rwa [show c.exec s = .ok s' from hs] at hkept

end Steps

/-! ## 5. Every run -/

theorem counted_of_reaches {s : Filters} (h : Run.Reaches Filters.step (fun s c => c.Sound s) dpfInitRefs s) :
    s.Counted :=
  h.invariant dpfInitRefs_counted fun _ _ _ hinv hok hstep => hinv.step hok hstep

/-- **Filter references are counted exactly.** After any sequence of sound calls the
    count of an id is the number of its bits, and it is positive exactly if the filter is
    in the trie; the next sound call gives nobody a reference to a filter that is not in
    the trie, and neither it nor the allocation of an id leaves the tables. -/
theorem references_counted {s : Filters}
    (h : Run.Reaches Filters.step (fun s c => c.Sound s) dpfInitRefs s) :
    (∀ i, (s.refcnt i).toNat = tally (s.refs i))
      ∧ (∀ i, s.InTrie i ↔ 0 < (s.refcnt i).toNat)
      ∧ (∀ p d, dpfAllocpid s.dpf = (some p, d) → p < nfilter)
      ∧ ∀ c : Call, c.Sound s →
        (∀ n, c.exec s ≠ .error (.outside n))
        ∧ ∀ s', s.step c s' → ∀ i j, s.refs i j = false → s'.refs i j = true → s'.InTrie i := by
  have hinv := counted_of_reaches h
  refine ⟨hinv.count, fun i => by rw [hinv.count i]; exact hinv.trie i, fun p d hp => ?_,
    fun c hc => ⟨fun n hs => ?_, fun s' hs i j _ hj => ?_⟩⟩
  · exact (dpfAllocpid_some hinv.ids hp).2.1
  · have hkept := hinv.exec hc
    rw [hs] at hkept
    obtain ⟨e, he⟩ := hkept
    cases he
  · exact ((hinv.step hc hs).trie i).mpr (tally_pos hj)

/-- The tables after a call that returns. -/
def Filters.after (s : Filters) (c : Call) : Filters :=
  match c.exec s with
  | .ok s' => s'
  | .error _ => s

theorem Filters.step_after {s : Filters} {c : Call} (h : (c.exec s).isOk = true) :
    s.step c (s.after c) := by
  cases hc : c.exec s with
  | error t => simp [hc, Except.isOk, Except.toBool] at h
  | ok s' => simp [Filters.step, Filters.after, hc]

/-- A second environment beside the first. -/
def twoEnvs : Kernel :=
  { smallKernel with
    envs := fun i => if i = 1 then { bootEnv rootCap with id := 1 } else smallKernel.envs i }

/-- Environment `i` calls for itself. -/
def demoCaller (i : Fin nenv) : Caller := ⟨twoEnvs, i, none⟩

/-- The first environment asks for all packets of one Ethernet type. -/
def demoInsert : Call := .insert (demoCaller 0) 0 0 true [mkeq 16 12 0xffff 8] 0

/-- One environment inserts a filter and another one refers to it: two references. -/
theorem references_counted_two :
    ((((dpfInitRefs.after demoInsert).after (.ref (demoCaller 1) 0 1)).refcnt 1).toNat = 2)
      ∧ tally (((dpfInitRefs.after demoInsert).after (.ref (demoCaller 1) 0 1)).refs 1) = 2 := by
  have hfirst : Run.Reaches Filters.step (fun s c => c.Sound s) dpfInitRefs
      (dpfInitRefs.after demoInsert) :=
    Run.Reaches.refl.call (i := demoInsert) trivial (Filters.step_after (by decide +kernel))
  have hsound : (Call.ref (demoCaller 1) 0 1).Sound (dpfInitRefs.after demoInsert) := by
    refine ⟨by decide, fun i e hi ha => ?_⟩
    obtain rfl : i = 1 := Fin.ext hi.symm
    -- the environment the call is for is the second one
    have he : envidx e.id = 1 := by
      have hmap := congrArg (fun r => r.toOption.bind fun r => r.toOption.map fun e => envidx e.id) ha
      have hval : ((dpfAccess (dpfInitRefs.after demoInsert) (demoCaller 1) 0
          (1 : BitVec 32).toNat).toOption.bind fun r => r.toOption.map fun e => envidx e.id)
          = some 1 := by decide +kernel
      simpa [Except.toOption] using hmap.symm.trans hval
    rw [he]
    exact ⟨by unfold Filters.InTrie; decide +kernel, by decide +kernel⟩
  have hrun := hfirst.call hsound (Filters.step_after (by decide +kernel))
  have hcount : (((dpfInitRefs.after demoInsert).after (.ref (demoCaller 1) 0 1)).refcnt 1).toNat = 2 := by
    decide +kernel
  exact ⟨hcount, ((references_counted hrun).1 1).symm.trans hcount⟩

/-- An environment that refers to its own filter counts twice with one bit; one that has
    deleted its filter is granted a reference to it all the same; and id 256 is looked
    up behind the end of the table. -/
theorem reference_to_removed_filter :
    (Run.Reaches Filters.step (fun _ _ => True) dpfInitRefs
        ((dpfInitRefs.after demoInsert).after (.ref (demoCaller 0) 0 1))
      ∧ (((dpfInitRefs.after demoInsert).after (.ref (demoCaller 0) 0 1)).refcnt 1).toNat
        ≠ tally (((dpfInitRefs.after demoInsert).after (.ref (demoCaller 0) 0 1)).refs 1))
    ∧ (Run.Reaches Filters.step (fun _ _ => True) dpfInitRefs
        ((dpfInitRefs.after demoInsert).after (.delete (demoCaller 0) 0 1))
      ∧ ¬((dpfInitRefs.after demoInsert).after (.delete (demoCaller 0) 0 1)).InTrie 1
      ∧ (((dpfInitRefs.after demoInsert).after (.delete (demoCaller 0) 0 1)).after
          (.ref (demoCaller 0) 0 1)).refs 1 0 = true)
    ∧ (Call.ref (demoCaller 0) 0 256).exec dpfInitRefs = .error (.outside 256) := by
  have hfirst : Run.Reaches Filters.step (fun _ _ => True) dpfInitRefs
      (dpfInitRefs.after demoInsert) :=
    Run.Reaches.refl.call trivial (Filters.step_after (by decide +kernel))
  refine ⟨⟨hfirst.call trivial (Filters.step_after (by decide +kernel)), by decide +kernel⟩,
    ⟨hfirst.call trivial (Filters.step_after (by decide +kernel)), ?_, by decide +kernel⟩, rfl⟩
  unfold Filters.InTrie
  decide +kernel

end Exokernel.Dpf
