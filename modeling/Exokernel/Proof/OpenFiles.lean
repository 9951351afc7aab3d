import Exokernel.Lib.Run
import Exokernel.Proof.FileStances

/-!
# Open files — what the reference counts are worth

Every call is code that a process may run in the stances it has between calls. So the counts
are right whenever no call is in progress, as long as the calls keep out of each other's way.

**The locks alone do not see to that.** They keep two decrements apart. They do not keep an
increment by `dup` from a decrement, and `close` tests the count again after it has given up the
lock, so that two processes can both find that they were the last. An `accept` that fails leaves
its new entry counted.
-/
set_option autoImplicit false

namespace Exokernel.Libos

open Function Option List Nat

variable {π : Type} [DecidableEq π] [Fintype π]

/-! ## 1. Calls -/

section Calls

variable {σ : Slots} {r : BitVec 16} {st : Stances} {f d : Filp} {n : Nat} {k bad : Code}

attribute [local simp] closeCode putfd dropDir Safe Code.before

theorem Slots.count_update (σ : Slots) (a : Slot) (o : Option Filp) (f : Filp) :
    Slots.count (update σ a o) f + (if a.isRef ∧ σ a = some f then 1 else 0) =
      σ.count f + if a.isRef ∧ o = some f then 1 else 0 := by
  unfold Slots.count
  rw [← Finset.add_sum_erase _ _ (Finset.mem_univ a), ← Finset.add_sum_erase _
    (fun a => if a.isRef = true ∧ σ a = some f then 1 else 0) (Finset.mem_univ a),
    update_self]
  have hrest : ∑ b ∈ Finset.univ.erase a,
      (if b.isRef = true ∧ update σ a o b = some f then 1 else 0) =
      ∑ b ∈ Finset.univ.erase a, if b.isRef = true ∧ σ b = some f then 1 else 0 :=
    Finset.sum_congr rfl fun b hb => by rw [update_of_ne (Finset.ne_of_mem_erase hb)]
  omega

variable {i : Fin (nrOpen + 1)} {m : Filp → Nat}

theorem update_idle {m' : Filp → Nat} (hst : ∀ f, st f = .idle (m f)) (hd : m' d = n)
    (hm : ∀ f, f ≠ d → m' f = m f) (f : Filp) : update st d (.idle n) f = .idle (m' f) := by
  by_cases hf : f = d
  · rw [hf, update_self, hd]
  · rw [update_of_ne hf, hst f, hm f hf]

theorem safe_closeCode (hi : i.val < nrOpen) (hst : st f = .idle (n + 1))
    (hk : ∀ r, Safe k (update σ (.fd i) none) r (update st f (.idle n)))
    (ht : k.testing f = false) : Safe (closeCode bad i f k) σ r st := by
  simp [closeCode, putfd, hi, Safe, hst, Code.before, hk, ht]

theorem testing_closeCode {g : Filp} (hi : i.val < nrOpen)
    (ht : k.testing f = false) : (closeCode bad i g k).testing f = false := by
  by_cases hg : g = f
  · simp [closeCode, Code.before, hg]
  · simp [closeCode, putfd, hi, Code.before, ht, hg]

theorem testing_dropDir (ht : k.testing f = false) : (dropDir d k).testing f = false := by
  by_cases hd : d = f
  · simp [dropDir, Code.before, hd]
  · simp [dropDir, Code.before, ht, hd]

theorem safe_dropDir (hst : st d = .idle (n + 1))
    (hk : ∀ r, Safe k σ r (update st d (.idle n))) (ht : k.testing d = false) :
    Safe (dropDir d k) σ r st := by
  simp [dropDir, Safe, hst, Code.before, hk, ht]

theorem safe_inc (hst : st f = .idle n) (hn : 1 ≤ n)
    (hk : ∀ r, Safe k σ r (update st f (.idle (n + 1)))) :
    Safe (.load f <| .store f true k) σ r st := by
  obtain ⟨n, rfl⟩ := Nat.exists_eq_add_of_le' hn
  simp [Safe, hst, hk]

theorem safe_incLocked (hst : st f = .idle n) (hn : 1 ≤ n)
    (hk : ∀ r, Safe k σ r (update st f (.idle (n + 1)))) :
    Safe (.lockFilp f <| .load f <| .store f true <| .unlockFilp f k) σ r st := by
  obtain ⟨n, rfl⟩ := Nat.exists_eq_add_of_le' hn
  simp [Safe, hst, hk]

theorem safe_first (hst : (st f).part = .raw ∨ (st f).part = .zeroed ∨ (st f).part = .loaded)
    (hk : ∀ r, Safe k σ r (update st f { st f with refs := 1, part := .none })) :
    Safe (.init f <| .load f <| .store f true k) σ r st := by
  simp [Safe, hst, hk]

/-- The descriptors of a list that name an entry. -/
abbrev fdCount (σ : Slots) (f : Filp) (is : List (Fin (nrOpen + 1))) : Nat :=
  is.countP fun i => σ (.fd i) = some f

theorem safe_closeAll {is : List (Fin (nrOpen + 1))} {σ' : Slots} (his : ∀ i ∈ is, i.val < nrOpen)
    (hst : ∀ f, st f = .idle (fdCount σ f is)) :
    Safe (closeAll σ is .die) σ' r st ∧ ∀ f, (closeAll σ is .die).testing f = false := by
  induction is generalizing r st σ' with
  | nil => exact ⟨fun f => by simpa [fdCount] using hst f, fun _ => rfl⟩
  | cons i is ih =>
    have hrest := fun j hj => his j (mem_cons_of_mem i hj)
    have hi := his i mem_cons_self
    rw [closeAll]
    cases hσ : σ (.fd i) with
    | none => exact ih hrest fun f => by simpa [fdCount, hσ] using hst f
    | some f =>
      have hk : ∀ σ' r, Safe (closeAll σ is .die) σ' r
          (update st f (.idle (fdCount σ f is))) ∧
          ∀ g, (closeAll σ is .die).testing g = false := fun σ' r =>
        ih hrest (update_idle hst rfl fun g hg => by simp [fdCount, hσ, Ne.symm hg])
      refine ⟨safe_closeCode hi ?_ (fun r => (hk _ r).1) ((hk σ r).2 f),
        fun g => testing_closeCode hi ((hk σ r).2 g)⟩
      simpa [fdCount, hσ] using hst f

abbrev named (o : Option Filp) (f : Filp) : Nat := if o = some f then 1 else 0

/-- The slots of a process are its descriptors and two directories. -/
def Slot.equiv : Slot ≃ Fin (nrOpen + 1) ⊕ Bool where
  toFun
    | .fd i => .inl i
    | .cwd => .inr false
    | .root => .inr true
  invFun
    | .inl i => .fd i
    | .inr false => .cwd
    | .inr true => .root
  left_inv a := by cases a <;> rfl
  right_inv x := by rcases x with i | _ | _ <;> rfl

/-- The references of a process are its descriptors and its two directories. -/
theorem Slots.count_eq (σ : Slots) (f : Filp) :
    σ.count f = fdCount σ f (fdsBelow nrOpen (le_refl _)) + named (σ .cwd) f + named (σ .root) f := by
  have hfds : ∑ i : Fin (nrOpen + 1), (if i.val < nrOpen ∧ σ (.fd i) = some f then 1 else 0) =
      fdCount σ f (fdsBelow nrOpen (le_refl _)) := by
    rw [Fin.sum_univ_castSucc, Fin.sum_univ_def, fdCount, fdsBelow, countP_map]
    simp only [Fin.val_last, lt_irrefl, false_and, if_false, add_zero]
    induction List.finRange nrOpen with
    | nil => rfl
    | cons i is ih =>
      rw [map_cons, sum_cons, ih, countP_cons, add_comm]
      simp [Fin.castSucc, Fin.castLE, Fin.castAdd]
  rw [Slots.count, Fintype.sum_equiv Slot.equiv _
    (fun x => if (Slot.equiv.symm x).isRef ∧ σ (Slot.equiv.symm x) = some f then 1 else 0)
    fun a => by rw [Equiv.symm_apply_apply], Fintype.sum_sum_type, Fintype.sum_bool]
  simp only [Slot.equiv, Equiv.coe_fn_symm_mk, Slot.isRef, decide_eq_true_eq, true_and, hfds, named]
  omega

theorem fdCount_endFds (σ : Slots) (f : Filp) :
    fdCount σ f endFds = fdCount σ f (fdsBelow nrOpen (le_refl _)) := by
  have hl : fdsBelow nrOpen (le_refl _) = [0, 1, 2] ++ (fdsBelow nrOpen (le_refl _)).drop 3 := rfl
  rw [fdCount, fdCount, hl, endFds, countP_append, countP_append, add_comm]

theorem safe_dropOpt {o : Option Filp}
    (hst : ∀ f, st f = .idle (m f + named o f))
    (hk : ∀ r st', (∀ f, st' f = .idle (m f)) → Safe k σ r st')
    (ht : ∀ f, k.testing f = false) :
    Safe (dropOpt o k) σ r st ∧ ∀ f, (dropOpt o k).testing f = false := by
  cases o with
  | none => exact ⟨hk r st fun f => by simpa [named] using hst f, ht⟩
  | some d =>
    refine ⟨safe_dropDir (n := m d) (by simpa [named] using hst d) (fun r => hk r _ ?_)
      (ht d), fun f => testing_dropDir (ht f)⟩
    exact update_idle hst rfl fun f hf => by simp [named, Ne.symm hf]

/-- **`FDEndProcess`** gives up all references. -/
theorem safe_fdEndProcess (hst : ∀ f, st f = .idle (σ.count f)) :
    Safe (fdEndProcess σ) σ r st := by
  have hend : ∀ i ∈ endFds, i.val < nrOpen := by decide +kernel
  have hclose : ∀ r st, (∀ f, st f = .idle (fdCount σ f endFds)) →
      Safe (closeAll σ endFds .die) σ r st ∧ ∀ f, (closeAll σ endFds .die).testing f = false :=
    fun _ _ h => safe_closeAll hend h
  have hroot : ∀ r st, (∀ f, st f = .idle (fdCount σ f endFds + named (σ .root) f)) →
      Safe (dropOpt (σ .root) (closeAll σ endFds .die)) σ r st ∧
        ∀ f, (dropOpt (σ .root) (closeAll σ endFds .die)).testing f = false :=
    fun _ _ h => safe_dropOpt h (fun r st h => (hclose r st h).1) fun f =>
      (hclose 0 _ fun _ => rfl).2 f
  refine (safe_dropOpt (o := σ .cwd) (m := fun f => fdCount σ f endFds + named (σ .root) f)
    (fun f => ?_) (fun r st h => (hroot r st h).1) fun f => (hroot 0 _ fun _ => rfl).2 f).1
  rw [hst f, Slots.count_eq, fdCount_endFds]
  congr 1
  omega

theorem safe_countOpt {o : Option Filp} (hst : ∀ f, st f = .idle (m f))
    (hpos : ∀ f, o = some f → 1 ≤ m f)
    (hk : ∀ r st', (∀ f, st' f = .idle (m f + named o f)) → Safe k σ r st') :
    Safe (countOpt o k) σ r st := by
  cases o with
  | none => exact hk r st fun f => by simpa [named] using hst f
  | some d =>
    refine safe_inc (hst d) (hpos d rfl) fun r => hk r _ (update_idle hst ?_ fun f hf => ?_)
    · simp [named]
    · simp [named, Ne.symm hf]

theorem safe_countAll {is : List (Fin (nrOpen + 1))}
    (hst : ∀ f, st f = .idle (m f)) (hpos : ∀ i ∈ is, ∀ f, σ (.fd i) = some f → 1 ≤ m f)
    (hk : ∀ r st', (∀ f, st' f = .idle (m f + fdCount σ f is)) → Safe k σ r st') :
    Safe (countAll σ is k) σ r st := by
  induction is generalizing r st m with
  | nil => exact hk r st fun f => by simpa [fdCount] using hst f
  | cons i is ih =>
    rw [countAll]
    cases hσ : σ (.fd i) with
    | none =>
      refine ih hst (fun j hj => hpos j (mem_cons_of_mem i hj)) fun r st' h => hk r st' ?_
      simpa [fdCount, hσ] using h
    | some d =>
      refine safe_incLocked (hst d) (hpos i mem_cons_self d hσ) fun r =>
        ih (m := fun f => m f + named (some d) f) (update_idle hst ?_ fun f hf => ?_)
          (fun j hj f hf => ?_) fun r st' h => hk r st' fun f => ?_
      · simp [named]
      · simp [named, Ne.symm hf]
      · exact le_add_right_of_le (hpos j (mem_cons_of_mem i hj) f hf)
      · rw [h f]
        simp only [fdCount, named, countP_cons, hσ, decide_eq_true_eq]
        congr 1
        omega

/-- **`UpdateRefCount`** counts every reference once more. -/
theorem safe_updateRefCount (hst : ∀ f, st f = .idle (σ.count f))
    (hk : ∀ r st', (∀ f, st' f = .idle (2 * σ.count f)) → Safe k σ r st') :
    Safe (updateRefCount σ k) σ r st := by
  have hpos : ∀ i ∈ fdsBelow nrOpen (le_refl _), ∀ f, σ (.fd i) = some f → 1 ≤ σ.count f := by
    intro i hi f hf
    have : 1 ≤ fdCount σ f (fdsBelow nrOpen (le_refl _)) :=
      countP_pos_iff.mpr ⟨i, hi, by simpa using hf⟩
    rw [Slots.count_eq]
    omega
  have hdir : ∀ a : Slot, a = .cwd ∨ a = .root → ∀ f, σ a = some f → 1 ≤ σ.count f := by
    rintro a (rfl | rfl) f hf
    · rw [Slots.count_eq, hf, named, if_pos rfl]
      omega
    · rw [Slots.count_eq, hf, named, named, if_pos rfl]
      omega
  have hcount := Slots.count_eq σ
  rw [updateRefCount]
  generalize fdsBelow nrOpen (le_refl _) = is at hpos hcount ⊢
  refine safe_countAll hst hpos fun r st' h => ?_
  refine safe_countOpt h (fun f hf => le_add_right_of_le (hdir .cwd (.inl rfl) f hf))
    fun r st' h => ?_
  refine safe_countOpt h (fun f hf => le_add_right_of_le
    (le_add_right_of_le (hdir .root (.inr rfl) f hf))) fun r st' h => hk r st' fun f => ?_
  have hdouble : σ.count f + fdCount σ f is + named (σ .cwd) f + named (σ .root) f =
      2 * σ.count f := by
    have := hcount f
    omega
  rw [h f, hdouble]

/-! ### The calls one by one -/

theorem freeFd_some {m : Nat} (h : freeFd σ m = some i) :
    i.val < nrOpen ∧ σ (.fd i) = none := by
  have hp := List.find?_some h
  obtain ⟨j, -, hj⟩ := mem_map.mp (mem_of_find?_eq_some h)
  simp only [decide_eq_true_eq] at hp
  exact ⟨by rw [← hj]; exact j.isLt, hp.2⟩

theorem checkfd_some {fd : Int} (h : checkfd σ fd = some (i, f))
    (hfd : fd ≠ nrOpen) : i.val < nrOpen ∧ i.val = fd.toNat ∧ σ (.fd i) = some f := by
  unfold checkfd at h
  split at h
  · cases h
  obtain ⟨g, hg, hi⟩ := map_eq_some_iff.mp h
  cases hi
  have hval : (Fin.ofNat (nrOpen + 1) fd.toNat).val = fd.toNat :=
    mod_eq_of_lt (by omega)
  exact ⟨by omega, hval, hg⟩

theorem count_set (hi : i.val < nrOpen) (hσ : σ (.fd i) = none) (g : Filp) :
    Slots.count (update σ (.fd i) (some f)) g = σ.count g + named (some f) g := by
  have := Slots.count_update σ (.fd i) (some f) g
  simpa [Slot.isRef, hi, hσ, named] using this

theorem count_clear (hi : i.val < nrOpen) (hσ : σ (.fd i) = some f)
    (g : Filp) :
    Slots.count (update σ (.fd i) none) g + named (some f) g = σ.count g := by
  have := Slots.count_update σ (.fd i) none g
  simpa [Slot.isRef, hi, hσ, named] using this

theorem count_pos (hi : i.val < nrOpen) (hσ : σ (.fd i) = some f) : 1 ≤ σ.count f := by
  have := count_clear hi hσ f
  rw [named, if_pos rfl] at this
  omega

/-- A process between two calls. -/
structure AtRest (σ : Slots) (st : Stances) : Prop where
  refs : ∀ f, st f = .idle (σ.count f)
  cwd : (σ .cwd).isSome = true
  root : (σ .root).isSome = true

variable (h : AtRest σ st)
include h

theorem AtRest.done (r : BitVec 16) : Safe .done σ r st :=
  ⟨h.refs, h.cwd, h.root⟩

theorem AtRest.quiet (f : Filp) : (st f).Quiet := by
  rw [h.refs f]
  exact ⟨rfl, .inl rfl⟩

theorem AtRest.quiet_update {x : Stance} (hx : x.Quiet) (g : Filp) : (update st f x g).Quiet := by
  by_cases hg : g = f
  · rw [hg, update_self]
    exact hx
  · rw [update_of_ne hg]
    exact h.quiet g

theorem AtRest.count_zero (hf : st f = .idle 0) : σ.count f = 0 := by
  have := h.refs f
  rw [hf] at this
  exact (Stance.mk.inj this).1.symm

theorem AtRest.set (hi : i.val < nrOpen)
    (hσ : σ (.fd i) = none) :
    AtRest (update σ (.fd i) (some f)) (update st f (.idle (σ.count f + 1))) where
  refs := update_idle h.refs (by simp [count_set hi hσ, named]) fun g hg => by
    simp [count_set hi hσ, named, Ne.symm hg]
  cwd := by simpa using h.cwd
  root := by simpa using h.root

theorem AtRest.clear (hi : i.val < nrOpen)
    (hσ : σ (.fd i) = some f) :
    ∃ n, σ.count f = n + 1 ∧
      AtRest (update σ (.fd i) none) (update st f (.idle n)) := by
  have hcount := count_clear hi hσ
  refine ⟨Slots.count (update σ (.fd i) none) f, ?_,
    ⟨update_idle h.refs rfl fun g hg => ?_, ?_, ?_⟩⟩
  · have := hcount f
    rw [named, if_pos rfl] at this
    exact this.symm
  · rw [← hcount g, named, if_neg (by simp [Ne.symm hg]), add_zero]
  · simpa using h.cwd
  · simpa using h.root

theorem safe_newFd : Safe (newFd σ) σ r st := by
  unfold newFd
  cases hi : freeFd σ 0 with
  | none => exact h.done r
  | some i =>
    obtain ⟨hlt, hσ⟩ := freeFd_some hi
    refine ⟨h.quiet, ?_, fun f hf => ?_⟩
    · have : update σ (.fd i) none = σ := by rw [← hσ, update_eq_self]
      change Safe .done (update σ (.fd i) none) r st
      rw [this]
      exact h.done r
    have hquiet : ∀ g, (update st f ⟨0, .zeroed, false⟩ g).Quiet :=
      h.quiet_update ⟨rfl, .inr (.inr rfl)⟩
    have hset : AtRest (update σ (.fd i) (some f))
        (update st f ⟨1, .none, false⟩) := by
      have := h.set (f := f) hlt hσ
      rwa [h.count_zero hf] at this
    have hback : update (update σ (.fd i) (some f)) (.fd i) none = σ := by
      rw [update_idem, ← hσ, update_eq_self]
    have hst : update st f (.idle 0) = st := by rw [← hf, update_eq_self]
    simp only [Safe, putfd, hlt, if_true, update_self, update_idem, hback, hst]
    simp only [reduceCtorEq, or_true, true_and, hquiet, implies_true, false_and, false_or,
      or_false, exists_false]
    exact ⟨⟨hset.refs, hset.cwd, hset.root⟩, h.refs, h.cwd, h.root⟩

theorem safe_dup3 {fd1 fd2 : Int} (hfd : fd1 ≠ nrOpen) :
    Safe (dup3 σ fd1 fd2) σ r st := by
  unfold dup3
  split
  · exact h.done r
  rename_i i f hcheck
  obtain ⟨hlt, -, hσ⟩ := checkfd_some hcheck hfd
  split
  · exact h.done r
  split
  · exact h.done r
  rename_i j hj
  obtain ⟨hjlt, hjσ⟩ := freeFd_some hj
  exact safe_inc (h.refs f) (count_pos hlt hσ) (h.set hjlt hjσ).done

theorem safe_close (hi : i.val < nrOpen)
    (hσ : σ (.fd i) = some f)
    (hk : ∀ r st', AtRest (update σ (.fd i) none) st' →
      Safe k (update σ (.fd i) none) r st') (ht : k.testing f = false) :
    Safe (closeCode bad i f k) σ r st := by
  obtain ⟨n, hn, hrest⟩ := h.clear hi hσ
  exact safe_closeCode hi (by rw [h.refs f, hn]) (fun r => hk r _ hrest) ht

theorem safe_dup2 {fd1 fd2 : Int} (hfd1 : fd1 ≠ nrOpen) (hfd2 : fd2 ≠ nrOpen) :
    Safe (dup2 σ fd1 fd2) σ r st := by
  unfold dup2
  split
  · exact h.done r
  rename_i i f hcheck
  obtain ⟨hlt, hval, hσ⟩ := checkfd_some hcheck hfd1
  split
  · exact h.done r
  split
  · exact h.done r
  rename_i hrange hne
  dsimp only
  have hj : (Fin.ofNat (nrOpen + 1) fd2.toNat).val = fd2.toNat :=
    mod_eq_of_lt (by omega)
  generalize Fin.ofNat (nrOpen + 1) fd2.toNat = j at hj ⊢
  have hjlt : j.val < nrOpen := by omega
  have hij : (Slot.fd i) ≠ .fd j := by
    intro hij
    have : i.val = j.val := congrArg Fin.val (Slot.fd.inj hij)
    have hpos : ¬fd1 < 0 := by
      intro hneg
      rw [checkfd, if_pos (.inl hneg)] at hcheck
      cases hcheck
    omega
  -- the new descriptor, once it is free
  have hset : ∀ {τ : Slots} {st' : Stances} (r : BitVec 16), AtRest τ st' → τ (.fd i) = some f →
      τ (.fd j) = none → Safe (.set (.fd j) (some f) <| .load f <| .store f true .done) τ r st' := by
    intro τ st' r h' hτ hτj
    exact safe_inc (r := r) (h'.refs f) (count_pos hlt hτ) (h'.set hjlt hτj).done
  split
  · rename_i hnone
    exact hset r h hσ hnone
  rename_i g hg
  refine safe_close h hjlt hg (fun r st' h' => hset r h' ?_ ?_) ?_
  · rw [update_of_ne hij, hσ]
  · rw [update_self]
  · by_cases hfg : f = g <;> simp [Code.before, hfg]

theorem AtRest.exchange {a : Slot} (ha : a = .cwd ∨ a = .root)
    (hσ : σ a = some d) (hf : st f = .idle 0) :
    d ≠ f ∧ ∃ n, σ.count d = n + 1 ∧ AtRest (update σ a (some f))
      (update (update st d (.idle n)) f (.idle 1)) := by
  have href : a.isRef = true := by rcases ha with rfl | rfl <;> rfl
  have hcount : ∀ g, Slots.count (update σ a (some f)) g + named (some d) g =
      σ.count g + named (some f) g := fun g => by
    have := Slots.count_update σ a (some f) g
    simpa [href, hσ, named] using this
  have hzero := h.count_zero hf
  have hne : d ≠ f := by
    rintro rfl
    have := Slots.count_update σ a none d
    simp only [href, hσ, hzero, and_self, if_true, reduceCtorEq, and_false, if_false] at this
    omega
  have hd := hcount d
  rw [named, named, if_pos rfl, if_neg (by simp [Ne.symm hne])] at hd
  refine ⟨hne, Slots.count (update σ a (some f)) d, by omega, ⟨fun g => ?_, ?_, ?_⟩⟩
  · have hg := hcount g
    by_cases hgf : g = f
    · subst hgf
      rw [named, named, if_pos rfl, if_neg (by simp [hne]), hzero] at hg
      have hone : Slots.count (update σ a (some g)) g = 1 := by omega
      rw [update_self, hone]
    · rw [update_of_ne hgf]
      by_cases hgd : g = d
      · rw [hgd, update_self]
      · rw [named, named, if_neg (by simp [Ne.symm hgd]), if_neg (by simp [Ne.symm hgf])] at hg
        rw [update_of_ne hgd, h.refs g, ← add_zero (σ.count g), ← hg, add_zero]
  · rcases ha with rfl | rfl
    · simp
    · simpa using h.cwd
  · rcases ha with rfl | rfl
    · simpa using h.root
    · simp

theorem safe_changeDir {a : Slot} (ha : a = .cwd ∨ a = .root)
    (hbad : Safe bad σ r st) : Safe (changeDir σ a bad) σ r st := by
  obtain ⟨d, hd⟩ : ∃ d, σ a = some d := by
    rcases ha with rfl | rfl
    · exact isSome_iff_exists.mp h.cwd
    · exact isSome_iff_exists.mp h.root
  refine ⟨h.quiet, hbad, fun f hf => ?_⟩
  obtain ⟨hne, n, hn, hrest⟩ := h.exchange ha hd hf
  have hquiet : ∀ g, (update st f ⟨0, .raw, false⟩ g).Quiet :=
    h.quiet_update ⟨rfl, .inr (.inl rfl)⟩
  have hback : update st f (.idle 0) = st := by rw [← hf, update_eq_self]
  have hnew : ∀ r, Safe (.init f <| .load f <| .store f true <| .set a (some f) .done) σ r
      (update (update st f ⟨0, .raw, false⟩) d (.idle n)) := by
    intro r
    refine safe_first (.inl ?_) fun r => ?_
    · rw [update_of_ne (Ne.symm hne), update_self]
    rw [update_of_ne (Ne.symm hne), update_self, update_comm (Ne.symm hne), update_idem]
    exact hrest.done r
  refine ⟨hquiet, .inl (by rw [update_self]), ?_, ?_⟩
  · simp only [hd, update_self, update_idem]
    refine safe_dropDir (n := n) ?_ hnew (by by_cases hfd : f = d <;> simp [Code.before, hfd])
    rw [update_of_ne hne, h.refs d, hn]
  · simp only [Safe, update_self, update_idem, true_or, or_true, true_and, hback]
    exact ⟨h.refs, h.cwd, h.root⟩

/-- **Every call** is code that a process at rest may run. -/
theorem safe_code {c : Call} (hc : c.Ok) : Safe (c.code σ) σ r st := by
  cases c with
  | socket => exact safe_newFd h
  | accept fd able =>
    simp only [Call.code]
    repeat' split
    · exact h.done r
    · exact safe_newFd h
    · exact h.done r
  | dup fd => exact safe_dup3 h hc
  | dup2 fd1 fd2 => exact safe_dup2 h hc.1 hc.2
  | dupfd fd arg =>
    simp only [Call.code]
    split
    · exact h.done r
    · exact safe_dup3 h hc
  | close fd =>
    simp only [Call.code]
    split
    · exact h.done r
    rename_i i f hcheck
    obtain ⟨hlt, -, hσ⟩ := checkfd_some hcheck hc
    exact safe_close h hlt hσ (fun r st' h' => h'.done r) rfl
  | chdir empty =>
    cases empty
    · exact safe_changeDir h (.inl rfl) (safe_fdEndProcess h.refs)
    · exact h.done r
  | fchdir fd dir =>
    simp only [Call.code]
    repeat' split
    · exact h.quiet
    · exact safe_changeDir h (.inl rfl) (safe_fdEndProcess h.refs)
    · exact h.done r
  | chroot empty =>
    cases empty
    · exact safe_changeDir h (.inr rfl) h.quiet
    · exact h.done r
  | fork =>
    refine safe_updateRefCount h.refs fun r st' h' => ⟨h', h.cwd, h.root, ?_⟩
    exact ⟨fun _ => rfl, h.cwd, h.root⟩
  | exit => exact safe_fdEndProcess h.refs

end Calls

/-! ## 2. Whole runs -/

/-- No call is in progress. -/
def Files.Quiescent (s : Files π) : Prop := ∀ p, (s.procs p).live = true → (s.procs p).code = .done

/-- The count of an entry is the number of its references, it is in use if it has one, and it has
    been closed if and only if its count has been decremented to zero, once. -/
structure Exact (s : Files π) (f : Filp) : Prop where
  count : (s.file f).inuse = true → (s.file f).ffCount.toNat = s.refs f
  inuse : (s.file f).inuse = true ↔ 0 < s.refs f
  once : (s.file f).closes = (s.file f).zeros ∧ (s.file f).zeros ≤ 1
  before : (s.file f).inuse = true → (s.file f).zeros = 0

/-- A table to start with: no call is in progress, every process has its directories, and the
    counts are right. -/
structure Start (s : Files π) : Prop where
  quiescent : s.Quiescent
  dirs : ∀ p, (s.procs p).live = true →
    ((s.procs p).slots .cwd).isSome = true ∧ ((s.procs p).slots .root).isSome = true
  unlocked : ∀ f, (s.file f).lock = none
  exact : ∀ f, Exact s f

section Runs

variable {s s' t : Files π} {st : π → Stances} {f : Filp}

omit [DecidableEq π] in
theorem Start.accounted (h : Start s) :
    Accounted s fun p f => .idle (if (s.procs p).live then (s.procs p).slots.count f else 0) where
  safe p hp := by
    rw [h.quiescent p hp]
    exact ⟨fun f => by simp [hp], h.dirs p hp⟩
  dead p hp f := by simp [hp]
  entries f := by
    obtain ⟨hcount, hinuse, ⟨hcl, hz⟩, hbefore⟩ := h.exact f
    cases hu : (s.file f).inuse with
    | true =>
      have hpos := hinuse.mp hu
      refine .live ⟨hu, fun p => by simp [h.unlocked f], hbefore hu, hcl.trans (hbefore hu), ?_,
        hcount hu, fun p => .inl rfl, fun p q test hv => nomatch hv⟩
      rw [hcount hu]
      exact hpos
    | false =>
      have hzero : s.refs f = 0 := by
        by_contra hne
        have := hinuse.mpr (Nat.pos_of_ne_zero hne)
        simp [hu] at this
      refine .free ⟨hu, h.unlocked f, hz, hcl, fun p => ?_⟩
      rw [Finset.sum_eq_zero_iff.mp hzero p (Finset.mem_univ p)]

theorem Accounted.exec {a : Act π} (h : Accounted s st) (hok : a.Ok s)
    (heq : s.exec a = some s') : ∃ st', Accounted s' st' := by
  cases a with
  | step p ch => exact h.step hok heq
  | call p c =>
    simp only [Files.exec] at heq
    split at heq
    · rename_i hlive hcode
      cases heq
      have hsafe := h.safe p hlive
      rw [hcode] at hsafe
      exact ⟨st, h.own (.of_safe hlive (safe_code ⟨hsafe.1, hsafe.2.1, hsafe.2.2⟩ hok))⟩
    · cases heq

theorem Accounted.run (h : Accounted s st)
    (hrun : Run.Reaches (fun s a t => Files.exec s a = some t) Act.Ok s t) :
    ∃ st', Accounted t st' :=
  hrun.invariant (I := fun t => ∃ st, Accounted t st) ⟨st, h⟩
    fun _ _ _ ⟨_, h⟩ hok heq => h.exec hok heq

omit [DecidableEq π] in
/-- An entry is not closed before its count is zero, and not twice. -/
theorem EntryOk.closes_le {e : Entry π} {st : π → Stance} (h : EntryOk e st) :
    e.closes ≤ e.zeros ∧ e.zeros ≤ 1 := by
  cases h with
  | free h => exact ⟨h.closes.le, h.zeros⟩
  | fresh p h => simp [h.closes, h.zeros]
  | live h => simp [h.closes, h.zeros]
  | dying p h =>
    rcases h.own with ⟨-, hc⟩ | ⟨b, -, hc⟩
    · simp [hc, h.zeros]
    · rw [hc, h.zeros]
      exact ⟨Bool.toNat_le b, le_refl 1⟩

omit [DecidableEq π] in
theorem Accounted.exact (h : Accounted s st) (hq : s.Quiescent) (f : Filp) : Exact s f := by
  have hst : ∀ p, st p f = .idle (if (s.procs p).live then (s.procs p).slots.count f else 0) := by
    intro p
    cases hp : (s.procs p).live with
    | true =>
      have hsafe := h.safe p hp
      rw [hq p hp] at hsafe
      simpa using hsafe.1 f
    | false => simpa using h.dead p hp f
  have hsum : ∑ p, (st p f).refs = s.refs f := Finset.sum_congr rfl fun p _ => by rw [hst p]
  cases h.entries f with
  | free h =>
    have hzero : s.refs f = 0 := by
      rw [← hsum]
      exact Finset.sum_eq_zero fun p _ => by rw [h.others p]
    exact ⟨fun hu => by simp [h.inuse] at hu, by simp [h.inuse, hzero], ⟨h.closes, h.zeros⟩,
      fun hu => by simp [h.inuse] at hu⟩
  | fresh p h => rcases h.own with ho | ⟨ho | ho, -⟩ <;> simp [hst p] at ho
  | live h =>
    have hcount : (s.file f).ffCount.toNat = s.refs f := h.sum.trans hsum
    refine ⟨fun _ => hcount, ?_, by simp [h.closes, h.zeros], fun _ => h.zeros⟩
    rw [← hcount]
    exact ⟨fun _ => h.pos, fun _ => h.inuse⟩
  | dying p h => rcases h.own with ⟨ho, -⟩ | ⟨b, ho, -⟩ <;> simp [hst p] at ho

/-- **Reference counts are exact.** In every run whose calls and steps meet the condition no entry
    is closed before its count is zero or twice; and whenever no call is in progress every count
    is the number of references, the entries in use are those that have some, and every entry
    whose count has been zero has been closed. -/
theorem counts_exact (h : Start s)
    (hrun : Run.Reaches (fun s a t => Files.exec s a = some t) Act.Ok s t) :
    (∀ f, (t.file f).closes ≤ (t.file f).zeros ∧ (t.file f).zeros ≤ 1) ∧
      (t.Quiescent → ∀ f, Exact t f) := by
  obtain ⟨st, ht⟩ := h.accounted.run hrun
  exact ⟨fun f => (ht.entries f).closes_le, fun hq f => ht.exact hq f⟩

end Runs

/-- Processes that share the directory 0 and, as descriptor 0, the socket 1. -/
def sharedFiles (π : Type) [Fintype π] : Files π where
  file f := ⟨f.val < 2, if f.val = 0 then 2 * Fintype.card π else Fintype.card π, none, 0, 0⟩
  procs _ := ⟨true, true, fun
    | .fd i => if i.val = 0 then some 1 else none
    | .cwd | .root => some 0, .done, 0⟩

theorem sharedFiles_refs (f : Filp) : (sharedFiles Bool).refs f =
    if f = 0 then 4 else if f = 1 then 2 else 0 := by
  have hfds : fdCount (((sharedFiles Bool).procs true).slots) f (fdsBelow nrOpen (le_refl _)) =
      if f = 1 then 1 else 0 := by
    by_cases hf : f = 1
    · subst hf
      decide +kernel
    · rw [if_neg hf]
      exact countP_eq_zero.mpr fun i _ => by simp [sharedFiles, Ne.symm hf]
  have hdirs : named (((sharedFiles Bool).procs true).slots .cwd) f = (if f = 0 then 1 else 0) ∧
      named (((sharedFiles Bool).procs true).slots .root) f = if f = 0 then 1 else 0 := by
    simp [sharedFiles, named, eq_comm]
  have hrefs : (sharedFiles Bool).refs f =
      2 * Slots.count (((sharedFiles Bool).procs true).slots) f := by
    simp [Files.refs, sharedFiles]
  rw [hrefs, Slots.count_eq, hfds, hdirs.1, hdirs.2]
  by_cases h0 : f = 0
  · simp [h0]
  · simp [h0]

theorem sharedFiles_start : Start (sharedFiles Bool) where
  quiescent _ _ := rfl
  dirs _ _ := ⟨rfl, rfl⟩
  unlocked _ := rfl
  exact f := by
    have hinuse : ((sharedFiles Bool).file f).inuse = true ↔ f = 0 ∨ f = 1 := by
      simp only [sharedFiles, decide_eq_true_eq, Fin.ext_iff]
      have h0 : ((0 : Filp) : Nat) = 0 := rfl
      have h1 : ((1 : Filp) : Nat) = 1 := rfl
      omega
    refine ⟨fun hu => ?_, ?_, ⟨rfl, zero_le 1⟩, fun _ => rfl⟩
    · rw [sharedFiles_refs]
      rcases hinuse.mp hu with rfl | rfl
      · decide +kernel
      · decide +kernel
    · rw [hinuse, sharedFiles_refs]
      by_cases h0 : f = 0
      · simp [h0]
      · by_cases h1 : f = 1 <;> simp [h0, h1]

/-- One of two processes that have the socket duplicates it. -/
theorem counts_exact_dup : ∃ t : Files Bool, (t.file 1).ffCount = 3 ∧ ∀ f, Exact t f := by
  let ch : Choice Bool := ⟨true, 0, true⟩
  have hfd : (Call.dup 0).Ok := by
    change (0 : Int) ≠ (nrOpen : Int)
    decide
  have hmax : (2 : BitVec 16) ≠ 0xffff := by decide
  have hstart : Run.Reaches (fun s a t => Files.exec s a = some t) Act.Ok (sharedFiles Bool)
      (sharedFiles Bool) := .refl
  have hcall := hstart.call (i := .call true (.dup 0)) (by exact hfd) rfl
  have hapart := hcall.call (i := .step true ch) (by
    -- the other process does nothing
    rintro (_ | _) hq _ hb
    · cases hb
    · exact absurd rfl hq) rfl
  have hrun := (hapart.call (i := .step true ch) (by exact hmax) rfl).call (i := .step true ch)
    (by exact trivial) rfl
  refine ⟨_, by decide +kernel, (counts_exact sharedFiles_start hrun).2 fun p _ => ?_⟩
  cases p
  · rfl
  · rfl

def Code.isDone : Code → Bool
  | .done => true
  | _ => false

theorem Code.isDone_iff {c : Code} : c.isDone = true ↔ c = .done := by
  cases c <;> simp [Code.isDone]

/-- `accept` returns `EWOULDBLOCK` after it has counted the new entry: it stays in use without a
    reference. Two processes that close their last descriptors of an entry at the same time both
    see the count zero: it is closed twice. -/
theorem counts_go_wrong :
    (∃ t : Files Unit, Run.Reaches (fun s a t => Files.exec s a = some t) (fun _ _ => True)
      (sharedFiles Unit) t ∧ t.Quiescent ∧ (t.file 2).inuse = true ∧ t.refs 2 = 0) ∧
    ∃ t : Files Bool, Run.Reaches (fun s a t => Files.exec s a = some t) (fun _ _ => True)
      (sharedFiles Bool) t ∧ t.Quiescent ∧ (t.file 1).closes = 2 ∧ (t.file 1).zeros = 1 := by
  constructor
  · let acts : List (Act Unit) := .call () (.accept 0 true) :: List.replicate 6 (.step () ⟨false, 1, ()⟩)
    have hrun : (Run.execAll Files.exec acts (sharedFiles Unit)).map (fun t =>
        ((t.procs ()).code.isDone, (t.file 2).inuse, t.refs 2)) = some (true, true, 0) := by
      decide +kernel
    obtain ⟨t, ht, h⟩ := map_eq_some_iff.mp hrun
    simp only [Prod.mk.injEq] at h
    exact ⟨t, Run.reaches_execAll acts (fun _ _ _ => trivial) ht,
      fun p _ => Code.isDone_iff.mp h.1, h.2.1, h.2.2⟩
  · let turns (p : Bool) (n : Nat) : List (Act Bool) := List.replicate n (.step p ⟨true, 0, p⟩)
    let acts : List (Act Bool) := .call true (.close 0) :: .call false (.close 0) ::
      (turns true 4 ++ turns false 4 ++ turns true 7 ++ turns false 7)
    have hrun : (Run.execAll Files.exec acts (sharedFiles Bool)).map (fun t =>
        ((t.procs true).code.isDone, (t.procs false).code.isDone, (t.file 1).closes,
          (t.file 1).zeros)) = some (true, true, 2, 1) := by
      decide +kernel
    obtain ⟨t, ht, h⟩ := map_eq_some_iff.mp hrun
    simp only [Prod.mk.injEq] at h
    refine ⟨t, Run.reaches_execAll acts (fun _ _ _ => trivial) ht, fun p _ => ?_, h.2.2.1, h.2.2.2⟩
    cases p
    · exact Code.isDone_iff.mp h.2.1
    · exact Code.isDone_iff.mp h.1

end Exokernel.Libos
