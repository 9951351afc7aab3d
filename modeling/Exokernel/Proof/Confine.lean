import Exokernel.Lib.Run
import Exokernel.Kern.Boot

/-!
# Capabilities are confined

Four calls put a capability into some environment's list: forging one, forging one into
another environment, acquiring a granted one, and seeding a new environment. **None
of them creates authority**: along every run, each capability anybody holds is
dominated by one that somebody held at the start.

The argument has two halves. `capDominates` is a preorder on the capabilities an
environment can hold (`capDominates_refl`, `capDominates_trans`). And a single call
only ever stores a capability that is dominated by one held before it (`HeldFrom`).
-/
set_option autoImplicit false

namespace Exokernel

open Option Function

/-! ## 1. The order -/

variable {c : Cap} {cur i : Fin nenv} {envid : BitVec 32} {junk : Uenv} {k k' k'' : Kernel}
  {r : Except Errno (Fin nenv)}

theorem capDominates_iff {d : Cap} :
    capDominates c d = true ↔
      c.valid = true ∧ c.isptr = false ∧ d.valid = true ∧ d.isptr = false ∧ c.len ≤ d.len ∧
        d.perm &&& c.perm = d.perm ∧ ∀ i : Fin 7, i.val < c.len.toNat → c.name i = d.name i := by
  unfold capDominates
  split
  · rename_i h
    simp only [Bool.false_eq_true, false_iff]
    simp only [Bool.or_eq_true, Bool.not_eq_true', decide_eq_true_eq] at h
    rintro ⟨h1, h2, h3, h4, h5, h6, -⟩
    simp [h1, h2, h3, h4, h6, BitVec.not_lt.mpr h5] at h
  · rename_i h
    simp only [Bool.or_eq_true, Bool.not_eq_true', decide_eq_true_eq, not_or,
      Bool.not_eq_false, Bool.not_eq_true, not_not, BitVec.not_lt] at h
    obtain ⟨⟨⟨⟨⟨h1, h2⟩, h3⟩, h4⟩, h5⟩, h6⟩ := h
    simp [nameEq, h1, h2, h3, h4, h5, h6]

theorem capDominates_refl (hv : c.valid = true) (hp : c.isptr = false) :
    capDominates c c = true :=
  capDominates_iff.mpr ⟨hv, hp, hv, hp, BitVec.le_refl _, BitVec.and_self, fun _ _ => rfl⟩

theorem capDominates_trans {a b : Cap} (hab : capDominates a b = true)
    (hbc : capDominates b c = true) : capDominates a c = true := by
  obtain ⟨va, pa, -, -, lab, mab, nab⟩ := capDominates_iff.mp hab
  obtain ⟨-, -, vc, pc, lbc, mbc, nbc⟩ := capDominates_iff.mp hbc
  refine capDominates_iff.mpr ⟨va, pa, vc, pc, BitVec.le_trans lab lbc, ?_, fun i hi => ?_⟩
  · rw [← mbc, BitVec.and_assoc, mab]
  · exact (nab i hi).trans (nbc i (lt_of_lt_of_le hi (BitVec.le_def.mp lab)))

/-! ## 2. Holding a capability -/

/-- Some environment that exists has the valid capability `c` in its list. -/
def Held (k : Kernel) (c : Cap) : Prop :=
  ∃ i, (k.envs i).status ≠ .free ∧ c.valid = true ∧ ∃ j, ((k.envs i).clist j).1 = c

/-- Everything held in `k'` is dominated by something held in `k`. -/
def HeldFrom (k k' : Kernel) : Prop :=
  ∀ c, Held k' c → ∃ c₀, Held k c₀ ∧ capDominates c₀ c = true

theorem Held.notPtr (h : Held k c) : c.isptr = false := by
  obtain ⟨i, -, hv, j, rfl⟩ := h
  exact ((k.envs i).clist j).2 hv

theorem Held.dominatesSelf (h : Held k c) : capDominates c c = true :=
  capDominates_refl h.choose_spec.2.1 h.notPtr

theorem HeldFrom.refl (k : Kernel) : HeldFrom k k :=
  fun c h => ⟨c, h, h.dominatesSelf⟩

theorem HeldFrom.trans (h : HeldFrom k k') (h' : HeldFrom k' k'') :
    HeldFrom k k'' := by
  intro c hc
  obtain ⟨c₁, hc₁, hd₁⟩ := h' c hc
  obtain ⟨c₀, hc₀, hd₀⟩ := h c₁ hc₁
  exact ⟨c₀, hc₀, capDominates_trans hd₀ hd₁⟩

/-- Nobody's list gains a capability, and nobody's list comes back to life. -/
theorem HeldFrom.ofLists
    (h : ∀ i, (k'.envs i).status ≠ .free → ∀ j, ((k'.envs i).clist j).1.valid = true →
      (k.envs i).status ≠ .free ∧ (k'.envs i).clist j = (k.envs i).clist j) :
    HeldFrom k k' := by
  rintro c ⟨i, hi, hv, j, rfl⟩
  obtain ⟨hlive, heq⟩ := h i hi j hv
  have hheld : Held k ((k'.envs i).clist j).1 := ⟨i, hlive, hv, j, by rw [heq]⟩
  exact ⟨_, hheld, hheld.dominatesSelf⟩

/-- Storing a capability in a list adds no authority if it is invalid, or dominated by
    one that was held. -/
theorem HeldFrom.setCap (h : HeldFrom k k') (i : Fin nenv) (kd : Fin maxCapno)
    {c : ClistCap} (hc : c.1.valid = true → ∃ c₀, Held k c₀ ∧ capDominates c₀ c.1 = true) :
    HeldFrom k (k'.modEnv i (·.setCap kd c)) := by
  rintro d ⟨i', hi', hv, j, rfl⟩
  by_cases hii : i' = i
  · subst hii
    simp only [Kernel.modEnv, Env.setCap, update_self] at hi' hv ⊢
    by_cases hj : j = kd
    · subst hj
      simp only [update_self] at hv ⊢
      exact hc hv
    · simp only [update_of_ne hj] at hv ⊢
      exact h _ ⟨i', hi', hv, j, rfl⟩
  · simp only [Kernel.modEnv, update_of_ne hii] at hi' hv ⊢
    exact h _ ⟨i', hi', hv, j, rfl⟩

/-- A capability that a live environment names by number is held. -/
theorem held_of_envGetcap {n : BitVec 32} {c : ClistCap}
    (hlive : (k.envs i).status ≠ .free) (h : envGetcap (k.envs i) n = .ok c) : Held k c.1 := by
  obtain ⟨hv, j, hj⟩ := envGetcap_ok h
  exact ⟨i, hlive, hv, j, by rw [hj]⟩

theorem envId2env_ok_iff :
    envId2env k envid = .ok i ↔
      envidx envid = i ∧ (k.envs i).status ≠ .free ∧ (k.envs i).id = envid := by
  unfold envId2env
  dsimp only
  split
  · rename_i hf
    simp only [reduceCtorEq, false_iff]
    rintro ⟨rfl, h, -⟩
    exact h hf
  rename_i hf
  split
  · rename_i hid
    simp only [reduceCtorEq, false_iff]
    rintro ⟨rfl, -, h⟩
    exact hid h
  · rename_i hid
    simp only [Except.ok.injEq]
    constructor
    · rintro rfl
      exact ⟨rfl, hf, not_not.mp hid⟩
    · exact fun h => h.1

theorem envId2env_live (h : envId2env k envid = .ok i) : (k.envs i).status ≠ .free :=
  (envId2env_ok_iff.mp h).2.1

/-! ## 3. Forging and acquiring -/

theorem sysForge_heldFrom (hcur : (k.envs cur).status ≠ .free)
    (tgt : Option (BitVec 32 × BitVec 32)) (kcap kd : BitVec 32) (new : Option Cap) :
    HeldFrom k (sysForge k cur tgt kcap kd new).2 := by
  have hnull : ∀ i (kd : Fin maxCapno), HeldFrom k (k.modEnv i (·.setCap kd ClistCap.null)) :=
    fun i kd => (HeldFrom.refl k).setCap i kd
      fun h => absurd h (by simp [ClistCap.null, Cap.null])
  unfold sysForge
  split
  · exact .refl k
  split
  · split
    · exact .refl k
    rename_i c hc
    split
    · exact .refl k
    cases new with
    | none => exact hnull _ _
    | some n =>
      dsimp only
      split
      · exact hnull _ _
      split
      · rename_i hdom
        refine (HeldFrom.refl k).setCap _ _ ?_
        exact fun _ => ⟨c.1, held_of_envGetcap hcur hc, hdom.2⟩
      · exact .refl k
  · exact .refl k

theorem sysSelfAcquire_heldFrom (k : Kernel) (cur : Fin nenv) (kd genvid : BitVec 32) :
    HeldFrom k (sysSelfAcquire k cur kd genvid).2 := by
  unfold sysSelfAcquire
  split
  · split
    · exact .refl k
    rename_i i hi
    split
    · exact .refl k
    rename_i u _
    split
    · exact .refl k
    split
    · exact .refl k
    rename_i c hc
    split
    · rename_i hdom
      -- clearing `u_aenvid` moves no capability
      have hclear : HeldFrom k (k.modEnv i ({ · with u := some { u with aenvid := 0 } })) :=
        .ofLists fun i' hi' j _ => by
          by_cases hii : i' = i
          · subst hii; simpa [Kernel.modEnv] using hi'
          · simpa [Kernel.modEnv, hii] using hi'
      refine hclear.setCap _ _ ?_
      exact fun _ => ⟨c.1, held_of_envGetcap (envId2env_live hi) hc, hdom.1⟩
    · exact .refl k
  · exact .refl k

/-! ## 4. New environments

Everything `env_alloc` does besides clearing the new environment's record is about
pages and page tables, and about the new environment's other fields. -/

/-- Only environment `i` was touched, and its list and its id were not. -/
structure OnlyEnv (i : Fin nenv) (k k' : Kernel) : Prop where
  others : ∀ i', i' ≠ i → k'.envs i' = k.envs i'
  list : (k'.envs i).clist = (k.envs i).clist
  id : (k'.envs i).id = (k.envs i).id

namespace OnlyEnv

variable {i : Fin nenv} {k k' k'' : Kernel}

theorem ofEnvs (h : k'.envs = k.envs) : OnlyEnv i k k' :=
  ⟨fun _ _ => by rw [h], by rw [h], by rw [h]⟩

theorem trans (h : OnlyEnv i k k') (h' : OnlyEnv i k' k'') : OnlyEnv i k k'' :=
  ⟨fun i' hi' => (h'.others i' hi').trans (h.others i' hi'), h'.list.trans h.list, h'.id.trans h.id⟩

theorem modEnv (h : OnlyEnv i k k') {f : Env → Env}
    (hf : ∀ e, (f e).clist = e.clist ∧ (f e).id = e.id) : OnlyEnv i k (k'.modEnv i f) :=
  ⟨fun i' hi' => by simpa [Kernel.modEnv, hi'] using h.others i' hi',
    by simpa [Kernel.modEnv, hf] using h.list, by simpa [Kernel.modEnv, hf] using h.id⟩

theorem envs (h : OnlyEnv i k k') (he : k''.envs = k'.envs) : OnlyEnv i k k'' :=
  h.trans (.ofEnvs he)

end OnlyEnv

section
variable (k : Kernel) (d : Fin nenv) (envid va perm : BitVec 32) (p : Nat)

@[simp] theorem pdeCheckNAlloc_envs : (pdeCheckNAlloc k d va).2.envs = k.envs := by
  unfold pdeCheckNAlloc
  split
  · rfl
  split
  · rfl
  · split <;> rfl

@[simp] theorem ppageRemove_envs : (ppageRemove k d envid va).envs = k.envs := by
  unfold ppageRemove
  split
  · rfl
  split
  · dsimp only
    split
    · rfl
    · simp only [Kernel.setPte_envs]
      split <;> simp
  · simp

@[simp] theorem ppageInsert_envs : (ppageInsert k d envid p va perm).2.envs = k.envs := by
  unfold ppageInsert
  dsimp only
  split
  · rfl
  split
  · rename_i hp
    simpa using congrArg (·.2.envs) hp.symm
  rename_i hp
  have := congrArg (·.2.envs) hp.symm
  simp only [pdeCheckNAlloc_envs, Kernel.modPage_envs] at this
  simp only [Kernel.modNptes_envs, Kernel.setPte_envs]
  split <;> simpa using this

end

theorem freePtLoop_envs {d : Fin nenv} {i : Fin nlpg} {left npte j : Nat}
    (h : freePtLoop d envid i left npte j k = some k') : k'.envs = k.envs := by
  fun_induction freePtLoop with
  | case1 | case3 =>
    cases h
    rfl
  | case2 | case4 => cases h
  | case5 _ _ _ _ _ _ _ _ ih => simpa using ih h
  | case6 _ _ _ _ _ _ _ _ ih => exact ih h

theorem freePts_envs {d : Fin nenv} {is : List (Fin nlpg)} :
    ∀ {k k' : Kernel}, freePts d envid is k = some k' → k'.envs = k.envs := by
  induction is with
  | nil =>
    intro k k' h
    simpa [freePts] using congrArg (Option.map Kernel.envs) h.symm
  | cons i is ih =>
    intro k k' h
    obtain ⟨k₁, h₁, h₂⟩ := bind_eq_some_iff.mp h
    refine (ih h₂).trans ?_
    unfold freePt at h₁
    split at h₁
    · exact absurd h₁ (by simp)
    split at h₁
    · simpa using congrArg (Option.map Kernel.envs) h₁.symm
    obtain ⟨k₀, h₀, rfl⟩ := map_eq_some_iff.mp h₁
    have he : k₀.envs = k.envs := freePtLoop_envs h₀
    exact he

@[simp] theorem freePd_envs (k : Kernel) (d : Fin nenv) : (freePd k d).envs = k.envs := by
  unfold freePd
  split <;> rfl

section
variable {k₁ : Kernel} {d : Fin nenv} {va perm : BitVec 32} {p : Nat} {r : Except Errno Unit}

theorem OnlyEnv.insert (h : OnlyEnv i k k₁) (hins : ppageInsert k' d envid p va perm = (r, k''))
    (he : k'.envs = k₁.envs) : OnlyEnv i k k'' :=
  h.envs (by rw [← he, ← ppageInsert_envs k' d envid va perm p, hins])

theorem OnlyEnv.checkPde (h : OnlyEnv i k k₁) (hpde : pdeCheckNAlloc k' d va = (r, k''))
    (he : k'.envs = k₁.envs) : OnlyEnv i k k'' :=
  h.envs (by rw [← he, ← pdeCheckNAlloc_envs k' d va, hpde])

end

theorem envFree_onlyEnv (h : envFree k i = some k') :
    OnlyEnv i k k' := by
  unfold envFree at h
  obtain ⟨d, -, h⟩ := bind_eq_some_iff.mp h
  obtain ⟨pd, -, h⟩ := bind_eq_some_iff.mp h
  obtain ⟨k₁, h₁, rfl⟩ := map_eq_some_iff.mp h
  have he : k₁.envs = k.envs := by
    split at h₁
    · obtain ⟨k₀, h₀, rfl⟩ := map_eq_some_iff.mp h₁
      simpa using freePts_envs h₀
    · simpa using congrArg (Option.map Kernel.envs) h₁.symm
  have hlast : OnlyEnv i k (k₁.modEnv i ({ · with pd := none, status := .free })) :=
    (OnlyEnv.ofEnvs he).modEnv fun _ => ⟨rfl, rfl⟩
  exact hlast.envs rfl

theorem envFree_status (h : envFree k i = some k') :
    (k'.envs i).status = .free := by
  unfold envFree at h
  obtain ⟨d, -, h⟩ := bind_eq_some_iff.mp h
  obtain ⟨pd, -, h⟩ := bind_eq_some_iff.mp h
  obtain ⟨k₁, -, rfl⟩ := map_eq_some_iff.mp h
  simp [Kernel.modEnv]

theorem envAllocPd_onlyEnv
    (h : envAllocPd k i junk = some (r, k')) :
    OnlyEnv i k k' ∧ ∀ i', r = .ok i' → i' = i := by
  have hpd : ∀ (k₁ : Kernel) (d : Fin nenv), k₁.envs = k.envs →
      OnlyEnv i k (k₁.modEnv i ({ · with pd := some d })) :=
    fun k₁ d he => (OnlyEnv.ofEnvs he).modEnv fun _ => ⟨rfl, rfl⟩
  unfold envAllocPd at h
  split at h
  · exact absurd h (by simp)
  obtain ⟨d, -, h⟩ := bind_eq_some_iff.mp h
  dsimp only at h
  split at h
  · cases h
    exact ⟨(hpd _ d rfl), by simp⟩
  split at h
  · cases h
    exact ⟨(hpd _ d rfl).envs rfl, by simp⟩
  split at h
  · cases h
    exact ⟨(hpd _ d rfl).envs rfl, by simp⟩
  split at h
  · rename_i hins
    cases h
    exact ⟨((hpd _ d rfl).insert hins rfl).envs rfl, by simp⟩
  rename_i k₂ hins
  have hu : OnlyEnv i k (k₂.modEnv i ({ · with u := some junk })) :=
    ((hpd _ d rfl).insert hins rfl).modEnv fun _ => ⟨rfl, rfl⟩
  split at h
  · rename_i hpde
    obtain ⟨k₄, h₄, heq⟩ := map_eq_some_iff.mp h
    cases heq
    exact ⟨(hu.checkPde hpde rfl).trans (envFree_onlyEnv h₄), by simp⟩
  · rename_i hpde
    cases h
    refine ⟨?_, fun i' hi' => by simpa using hi'.symm⟩
    exact ((hu.checkPde hpde rfl).envs (by simp)).modEnv fun _ => ⟨rfl, rfl⟩

/-- Only the first free environment was touched. It holds nothing now and has a new id. -/
structure Fresh (k k' : Kernel) (i : Fin nenv) : Prop where
  head : k.envFreeList.head? = some i
  others : ∀ i', i' ≠ i → k'.envs i' = k.envs i'
  empty : ∀ j, (k'.envs i).clist j = ClistCap.null
  id : (k'.envs i).id = k.nextEnvId <<< 11 ||| BitVec.ofNat 32 i.val

theorem Fresh.onlyEnv (h : Fresh k k' i)
    (h' : OnlyEnv i k' k'') : Fresh k k'' i :=
  ⟨h.head, fun i' hi' => (h'.others i' hi').trans (h.others i' hi'),
    fun j => by rw [h'.list, h.empty j], h'.id.trans h.id⟩

theorem Fresh.heldFrom (h : Fresh k k' i) : HeldFrom k k' := by
  refine .ofLists fun i' hi' j hv => ?_
  by_cases hii : i' = i
  · subst hii
    exact absurd hv (by simp [h.empty j, ClistCap.null, Cap.null])
  · rw [h.others i' hii] at hi' ⊢
    exact ⟨hi', rfl⟩

/-- An environment that `env_alloc` hands out, or leaves behind when it fails, holds
    nothing. -/
theorem envAlloc_fresh {newpt : Bool}
    (h : envAlloc k newpt junk = some (r, k')) :
    (k' = k ∧ k.envFreeList = []) ∨ ∃ i, Fresh k k' i ∧ ∀ i', r = .ok i' → i' = i := by
  unfold envAlloc at h
  split at h
  · cases h
    rename_i hlist
    exact .inl ⟨rfl, hlist⟩
  rename_i i rest hlist
  refine .inr ⟨i, ?_⟩
  dsimp only at h
  generalize hk₁ : Kernel.modEnv _ i _ = k₁ at h
  have hfresh : Fresh k k₁ i := by
    subst hk₁
    exact ⟨by simp [hlist], fun i' hi' => by simp [Kernel.modEnv, hi'],
      fun j => by simp [Kernel.modEnv, Env.zero], by simp [Kernel.modEnv]⟩
  split at h
  · obtain ⟨honly, hr⟩ := envAllocPd_onlyEnv h
    exact ⟨hfresh.onlyEnv honly, hr⟩
  · cases h
    exact ⟨hfresh, fun i' hi' => by simpa using hi'.symm⟩

theorem envClone_fresh
    (h : envClone k cur junk = some (r, k')) :
    (k' = k ∧ k.envFreeList = []) ∨ ∃ i, Fresh k k' i ∧ ∀ i', r = .ok i' → i' = i := by
  unfold envClone at h
  obtain ⟨⟨r₁, k₁⟩, h₁, h⟩ := bind_eq_some_iff.mp h
  cases r₁ with
  | error e =>
    cases h
    exact envAlloc_fresh h₁
  | ok i =>
    dsimp only at h
    obtain ⟨d, hd, h⟩ := bind_eq_some_iff.mp h
    rcases envAlloc_fresh h₁ with ⟨rfl, hlist⟩ | ⟨i₁, hfresh, hi₁⟩
    · -- without a free environment the call has failed already
      exact absurd h₁ (by simp [envAlloc, hlist])
    obtain rfl := hi₁ i rfl
    refine .inr ⟨i, ?_⟩
    have hpd : OnlyEnv i k₁ (k₁.modEnv i ({ · with pd := some d })) :=
      (OnlyEnv.ofEnvs rfl).modEnv fun _ => ⟨rfl, rfl⟩
    split at h
    · obtain ⟨k₂, h₂, heq⟩ := map_eq_some_iff.mp h
      cases heq
      refine ⟨hfresh.onlyEnv (OnlyEnv.trans ?_ (envFree_onlyEnv h₂)), by simp⟩
      exact hpd.envs rfl
    split at h
    · rename_i hins
      obtain ⟨k₃, h₃, heq⟩ := map_eq_some_iff.mp h
      cases heq
      exact ⟨hfresh.onlyEnv ((hpd.insert hins rfl).trans (envFree_onlyEnv h₃)), by simp⟩
    · rename_i hins
      cases h
      refine ⟨hfresh.onlyEnv ?_, fun i' hi' => by simpa using hi'.symm⟩
      exact (hpd.insert hins rfl).modEnv fun _ => ⟨rfl, rfl⟩

theorem envNew_fresh {clone : Bool}
    (h : (if clone then envClone k cur junk else envAlloc k true junk) = some (r, k')) :
    (k' = k ∧ k.envFreeList = []) ∨ ∃ i, Fresh k k' i ∧ ∀ i', r = .ok i' → i' = i := by
  split at h
  · exact envClone_fresh h
  · exact envAlloc_fresh h

@[simp] theorem setCapUarea_envs (k : Kernel) (i : Fin nenv) (c : Cap) :
    (setCapUarea k i c).envs = k.envs := by
  unfold setCapUarea
  split <;> rfl

theorem HeldFrom.envs (h : HeldFrom k k') (he : k''.envs = k'.envs) :
    HeldFrom k k'' := by
  intro c hc
  refine h c ?_
  unfold Held at hc ⊢
  rwa [he] at hc

theorem sysEnvAlloc_heldFrom
    (hcur : (k.envs cur).status ≠ .free) {clone : Bool} {kcap : BitVec 32}
    {r : Except Errno (BitVec 32)} (h : sysEnvAlloc k cur clone kcap junk = some (r, k')) :
    HeldFrom k k' := by
  unfold sysEnvAlloc at h
  split at h
  · cases h
    exact .refl k
  rename_i c hc
  split at h
  · cases h
    exact .refl k
  obtain ⟨⟨r₁, k₁⟩, h₁, h⟩ := map_eq_some_iff.mp h
  have hfrom : HeldFrom k k₁ := by
    rcases envNew_fresh h₁ with ⟨rfl, -⟩ | ⟨i, hfresh, -⟩
    · exact .refl _
    · exact hfresh.heldFrom
  cases r₁ with
  | error e =>
    cases h
    exact hfrom
  | ok i =>
    cases h
    refine HeldFrom.envs (hfrom.setCap i 0 fun _ => ?_) (setCapUarea_envs _ _ _)
    have hheld := held_of_envGetcap hcur hc
    exact ⟨c.1, hheld, hheld.dominatesSelf⟩

/-! ## 5. Runs -/

/-- The calls that move capabilities, and an environment writing its own `Uenv`. -/
inductive CapOp where
  | forge (cur : Fin nenv) (tgt : Option (BitVec 32 × BitVec 32)) (k kd : BitVec 32)
      (new : Option Cap)
  | selfAcquire (cur : Fin nenv) (k genvid : BitVec 32)
  | envAlloc (cur : Fin nenv) (clone : Bool) (k : BitVec 32) (junk : Uenv)
  | store (cur : Fin nenv) (u : Uenv)

namespace CapOp

def caller : CapOp → Fin nenv
  | forge cur .. => cur
  | selfAcquire cur .. => cur
  | envAlloc cur .. => cur
  | store cur _ => cur

/-- Make the call. No result: it did not return. -/
def exec (k : Kernel) : CapOp → Option Kernel
  | forge cur tgt kcap kd new => some (sysForge k cur tgt kcap kd new).2
  | selfAcquire cur kd genvid => some (sysSelfAcquire k cur kd genvid).2
  | envAlloc cur clone kcap junk => (sysEnvAlloc k cur clone kcap junk).map (·.2)
  | store cur u => some (storeUenv k cur u)

/-- The caller exists. -/
def ByEnv (k : Kernel) (op : CapOp) : Prop := (k.envs op.caller).status ≠ .free

end CapOp

theorem HeldFrom.exec {op : CapOp} (hok : op.ByEnv k)
    (h : op.exec k = some k') : HeldFrom k k' := by
  cases op with
  | forge cur tgt kcap kd new =>
    obtain rfl : _ = k' := by simpa [CapOp.exec] using h
    exact sysForge_heldFrom hok tgt kcap kd new
  | selfAcquire cur kd genvid =>
    obtain rfl : _ = k' := by simpa [CapOp.exec] using h
    exact sysSelfAcquire_heldFrom k cur kd genvid
  | envAlloc cur clone kcap junk =>
    obtain ⟨⟨r, k₁⟩, h₁, rfl⟩ := map_eq_some_iff.mp h
    exact sysEnvAlloc_heldFrom hok h₁
  | store cur u =>
    obtain rfl : _ = k' := by simpa [CapOp.exec] using h
    refine .ofLists fun i hi j _ => ?_
    by_cases hii : i = cur
    · subst hii; simpa [storeUenv, Kernel.modEnv] using hi
    · simpa [storeUenv, Kernel.modEnv, hii] using hi

/-- **Confinement.** Along every run of calls by existing environments, a valid
    capability in any environment's list is dominated by a valid one that some
    environment had at the start. -/
theorem capabilities_confined {k₀ k : Kernel}
    (hrun : Run.Reaches (fun k op k' => CapOp.exec k op = some k') CapOp.ByEnv k₀ k)
    (i : Fin nenv) (hi : (k.envs i).status ≠ .free) (j : Fin maxCapno)
    (hv : ((k.envs i).clist j).1.valid = true) :
    ∃ i₀ j₀, (k₀.envs i₀).status ≠ .free ∧ ((k₀.envs i₀).clist j₀).1.valid = true ∧
      capDominates ((k₀.envs i₀).clist j₀).1 ((k.envs i).clist j).1 = true := by
  have hfrom : HeldFrom k₀ k :=
    hrun.invariant (.refl k₀) fun _ _ _ hs hok hstep => hs.trans (.exec hok hstep)
  obtain ⟨c₀, ⟨i₀, hlive, hv₀, j₀, rfl⟩, hdom⟩ := hfrom _ ⟨i, hi, hv, j, rfl⟩
  exact ⟨i₀, j₀, hlive, hv₀, hdom⟩

/-- The first environment forges a narrower capability into its slot 3. -/
theorem capabilities_confined_forge :
    let k₀ := smallKernel
    let c : Cap := ⟨clDup, true, false, 1, fun _ => 5⟩
    let k := (sysForge k₀ 0 none 0 3 (some c)).2
    ∃ i₀ j₀, (k₀.envs i₀).status ≠ .free ∧ ((k₀.envs i₀).clist j₀).1.valid = true ∧
      capDominates ((k₀.envs i₀).clist j₀).1 ((k.envs 0).clist 3).1 = true := by
  intro k₀ c k
  have hrun : Run.Reaches (fun k op k' => CapOp.exec k op = some k') CapOp.ByEnv k₀ k :=
    Run.Reaches.refl.call (i := .forge 0 none 0 3 (some c)) (fun h => nomatch h) rfl
  exact capabilities_confined hrun 0 (by decide) 3 (by decide)

end Exokernel
