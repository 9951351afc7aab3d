import Exokernel.Lib.Run
import Exokernel.Xn.Dependency

/-!
# The search for cycles among write dependencies

`no_cycle` walks the edges from a node, marks what it meets and takes a second meeting for a cycle.
**What it finds out is whether the nodes ahead form a tree.** A cycle is never missed, so that the
graph stays acyclic; but two ways to one node are no cycle, and they are refused like one.
-/
set_option autoImplicit false

namespace Exokernel.Xn

open Relation Function

/-! ## 1. One search -/

def Deps.Acyclic (d : Deps) : Prop := ∀ x, ¬TransGen d.Edge x x

/-- One sector is before the other in the order of writing, or is the same. -/
abbrev Deps.Ahead (d : Deps) : Sec → Sec → Prop := ReflTransGen d.Edge

/-- Nothing is ahead of both. -/
def Deps.Forks (d : Deps) (b c : Sec) : Prop := ∀ z, d.Ahead b z → ¬d.Ahead c z

/-- **From `a` there is one way to each node**: the edges of a node fork for good, and none leads
    back to it. -/
def Deps.Tree (d : Deps) (a : Sec) : Prop :=
  ∀ x, d.Ahead a x → (d.succs x).Pairwise d.Forks ∧ ∀ c, d.Edge x c → ¬d.Ahead c x

section Search

variable {d : Deps} {e : BitVec 32} {S : Finset Sec} {M M' : Marks} {a b x : Sec} {n v v' : Nat}

theorem mem_succs : b ∈ d.succs a ↔ d.Edge a b := by
  simp [Deps.succs, Deps.Edge]

/-- Every way from `a` ends before it has `n` nodes. -/
def Deps.Short (d : Deps) : Nat → Sec → Prop
  | 0, _ => False
  | n + 1, a => ∀ c, d.Edge a c → d.Short n c

theorem Deps.Short.not_cycle (h : d.Short n a) (hax : d.Ahead a x) : ¬TransGen d.Edge x x := by
  induction n generalizing a with
  | zero => exact h.elim
  | succ n ih =>
    intro hx
    rcases hax.cases_head with rfl | ⟨c, hac, hcx⟩
    · obtain ⟨c, hac, hca⟩ := TransGen.head'_iff.mp hx
      exact ih (h c hac) hca hx
    · exact ih (h c hac) hcx hx

theorem searchAll_found {search : Sec → Marks → Nat → Option (Nat × Marks)} {bs : List Sec}
    (h : searchAll search bs M v = some (v', M')) (hv : v' ≠ 0) :
    ∀ b ∈ bs, ∃ M v M' v', search b M v = some (v', M') ∧ v' ≠ 0 := by
  induction bs generalizing M v with
  | nil => simp
  | cons b bs ih =>
    obtain ⟨⟨v₁, M₁⟩, hb, h⟩ := Option.bind_eq_some_iff.mp h
    dsimp only at h
    split at h
    · cases h
      exact absurd rfl hv
    · rename_i hv₁
      exact List.forall_mem_cons.mpr ⟨⟨M, v, M₁, v₁, hb, hv₁⟩, ih h⟩

/-- **A search that finds no cycle has been to the end of every way.** -/
theorem noCycle_short (h : noCycle d e n a M v = some (v', M')) (hv : v' ≠ 0) : d.Short n a := by
  induction n generalizing a M v M' v' with
  | zero => cases h
  | succ n ih =>
    unfold noCycle at h
    split at h
    · cases h
      exact absurd rfl hv
    split at h
    · cases h
    intro c hc
    obtain ⟨M₁, v₁, M₂, v₂, hc, hv₂⟩ := searchAll_found h hv c (mem_succs.mpr hc)
    exact ih hc hv₂

/-- The marked nodes of `S`. -/
def marked (S : Finset Sec) (e : BitVec 32) (M : Marks) : Nat := (S.filter fun z => M z = e).card

/-- The search from the nodes `bs` ends. If it returns a number then that many nodes are marked, and
    it does if there is one way to each node ahead, and none is marked. -/
def Answers (d : Deps) (e : BitVec 32) (S : Finset Sec) (bs : List Sec) (M : Marks)
    (r : Option (Nat × Marks)) : Prop :=
  ∃ v M', r = some (v, M') ∧
    (v ≠ 0 → v = marked S e M' ∧ marked S e M ≤ marked S e M') ∧
    (bs.Pairwise d.Forks → (∀ b ∈ bs, d.Tree b ∧ ∀ z, d.Ahead b z → M z ≠ e) →
      v ≠ 0 ∧ ∀ z, M' z = e → M z = e ∨ ∃ b ∈ bs, d.Ahead b z)

theorem searchAll_answers {search : Sec → Marks → Nat → Option (Nat × Marks)}
    (hs : ∀ b M v, b ∈ S → v = marked S e M → n ≤ v → Answers d e S [b] M (search b M v)) :
    ∀ (bs : List Sec) (M : Marks) (v : Nat), (∀ b ∈ bs, b ∈ S) → v = marked S e M → n ≤ v → v ≠ 0 →
      Answers d e S bs M (searchAll search bs M v) := by
  intro bs
  induction bs with
  | nil =>
    intro M v _ hv _ hv0
    exact ⟨v, M, rfl, fun _ => ⟨hv, le_rfl⟩, fun _ _ => ⟨hv0, fun _ => .inl⟩⟩
  | cons b bs ih =>
    intro M v hS hv hn hv0
    obtain ⟨hbS, hS⟩ := List.forall_mem_cons.mp hS
    obtain ⟨v₁, M₁, hr, hok, hclear⟩ := hs b M v hbS hv hn
    have hhead : (∀ c ∈ b :: bs, d.Tree c ∧ ∀ z, d.Ahead c z → M z ≠ e) →
        v₁ ≠ 0 ∧ ∀ z, M₁ z = e → M z = e ∨ ∃ c ∈ [b], d.Ahead c z := fun hun =>
      hclear (List.pairwise_singleton _ _) (List.forall_mem_singleton.mpr (hun b (by simp)))
    unfold searchAll
    rw [hr, Option.bind_some]
    dsimp only
    by_cases hv₁ : v₁ = 0
    · rw [if_pos hv₁]
      exact ⟨0, M₁, rfl, fun h => absurd rfl h, fun _ hun => absurd hv₁ (hhead hun).1⟩
    rw [if_neg hv₁]
    obtain ⟨hcount, hle⟩ := hok hv₁
    obtain ⟨v₂, M₂, hr₂, hok₂, hclear₂⟩ := ih M₁ v₁ hS hcount (by omega) hv₁
    refine ⟨v₂, M₂, hr₂, fun h₂ => ⟨(hok₂ h₂).1, hle.trans (hok₂ h₂).2⟩, fun hf hun => ?_⟩
    obtain ⟨-, hfirst⟩ := hhead hun
    obtain ⟨hfork, hf⟩ := List.pairwise_cons.mp hf
    obtain ⟨h₂, hrest⟩ := hclear₂ hf fun c hc => by
      obtain ⟨htree, hfree⟩ := hun c (List.mem_cons_of_mem _ hc)
      refine ⟨htree, fun z hz hM => ?_⟩
      rcases hfirst z hM with h | ⟨b', hb', hbz⟩
      · exact hfree z hz h
      · exact hfork c hc z (List.mem_singleton.mp hb' ▸ hbz) hz
    refine ⟨h₂, fun z hz => ?_⟩
    rcases hrest z hz with hz | ⟨c, hc, hcz⟩
    · rcases hfirst z hz with hz | ⟨c, hc, hcz⟩
      · exact .inl hz
      · exact .inr ⟨c, by simp_all, hcz⟩
    · exact .inr ⟨c, List.mem_cons_of_mem _ hc, hcz⟩

theorem noCycle_answers (hS : ∀ x ∈ S, ∀ c, d.Edge x c → c ∈ S) (hcard : S.card ≤ maxVisit)
    (n : Nat) : ∀ x M v, x ∈ S → v = marked S e M → maxVisit + 1 - n ≤ v →
      Answers d e S [x] M (noCycle d e n x M v) := by
  induction n with
  | zero =>
    intro x M v _ hv hn
    have hle : marked S e M ≤ S.card := Finset.card_filter_le S _
    omega
  | succ n ih =>
    intro x M v hx hv hn
    unfold noCycle
    split
    · rename_i hmet
      exact ⟨0, M, rfl, fun h => absurd rfl h,
        fun _ hun => absurd hmet ((hun x (by simp)).2 x .refl)⟩
    rename_i hnew
    have hmark : marked S e (update M x e) = marked S e M + 1 := by
      have hset : (S.filter fun z => update M x e z = e) =
          insert x (S.filter fun z => M z = e) := by
        ext z
        by_cases hz : z = x
        · subst hz; simp [hx]
        · simp [hz]
      rw [marked, hset, Finset.card_insert_of_notMem (by simp [hnew]), marked]
    have hle : marked S e (update M x e) ≤ S.card := Finset.card_filter_le S _
    rw [if_neg (by omega)]
    obtain ⟨v', M', hr, hok, hclear⟩ := searchAll_answers ih (d.succs x) (update M x e) (v + 1)
      (fun b hb => hS x hx b (mem_succs.mp hb)) (by omega) (by omega) (by omega)
    refine ⟨v', M', hr, fun hv' => ⟨(hok hv').1, by have := (hok hv').2; omega⟩, fun _ hun => ?_⟩
    obtain ⟨htree, hfree⟩ := hun x (by simp)
    obtain ⟨hv', hreach⟩ := hclear (htree x .refl).1 fun b hb => by
      have hxb := mem_succs.mp hb
      refine ⟨fun y hy => htree y (hy.head hxb), fun z hz => ?_⟩
      have hzx : z ≠ x := fun h => (htree x .refl).2 b hxb (h ▸ hz)
      rw [update_of_ne hzx]
      exact hfree z (hz.head hxb)
    refine ⟨hv', fun z hz => ?_⟩
    rcases hreach z hz with hz | ⟨b, hb, hbz⟩
    · by_cases hzx : z = x
      · exact .inr ⟨x, by simp, hzx ▸ .refl⟩
      · exact .inl (by rwa [update_of_ne hzx] at hz)
    · exact .inr ⟨x, by simp, hbz.head (mem_succs.mp hb)⟩

end Search

/-! ## 2. One call -/

section Depend

variable {d : Deps} {s s' : SecState} {a b x y : Sec} {tf : Option Nat}

/-- A way in the new graph is one in the old graph, or it uses the new edge. -/
theorem way_cases (h : TransGen (addEdge d a b).Edge x y) :
    TransGen d.Edge x y ∨ (addEdge d a b).Ahead x a ∧ (addEdge d a b).Ahead b y := by
  induction h with
  | single hxy =>
    rcases addEdge_edge.mp hxy with hxy | ⟨rfl, rfl⟩
    · exact .inl (.single hxy)
    · exact .inr ⟨.refl, .refl⟩
  | tail hway hlast ih =>
    rcases ih with ih | ⟨hxa, hby⟩
    · rcases addEdge_edge.mp hlast with hold | ⟨rfl, rfl⟩
      · exact .inl (ih.tail hold)
      · exact .inr ⟨hway.to_reflTransGen, .refl⟩
    · exact .inr ⟨hxa, hby.tail hlast⟩

/-- A new edge from `a` closes a cycle through `a`, or none. -/
theorem addEdge_acyclic (hd : d.Acyclic) (ha : ¬TransGen (addEdge d a b).Edge a a) :
    (addEdge d a b).Acyclic := by
  intro x hx
  rcases way_cases hx with hx | ⟨hxa, hbx⟩
  · exact hd x hx
  · exact ha (.head' (addEdge_edge.mpr (.inr ⟨rfl, rfl⟩)) (hbx.trans hxa))

theorem Deps.Ok.hasNode (h : d.Ok) (he : d.Edge x y) :
    d.hasNode x = true ∧ d.hasNode y = true := by
  have hout : 0 < d.outs x := by
    rw [h.outs, List.countP_pos_iff]
    exact ⟨_, he, by simp⟩
  have hin : 0 < d.ins y := by
    rw [h.ins, List.countP_pos_iff]
    exact ⟨_, he, by simp⟩
  exact ⟨by simp [Deps.hasNode, hout.ne'], by simp [Deps.hasNode, hin.ne']⟩

theorem removeEdge_addEdge (h : (a, b) ∉ d.edges) : removeEdge (addEdge d a b) (a, b) = d := by
  simp [removeEdge, addEdge, h]

/-- A node is installed. The graph is as it was, and the mark of a new node is 0. -/
theorem secInstall_cases (h : secInstall s a tf = some s') :
    s'.deps = s.deps ∧ s'.epoch = s.epoch ∧
      ∀ x, s'.mark x = s.mark x ∨ s'.mark x = 0 ∧ s.deps.hasNode x = false := by
  unfold secInstall at h
  split at h
  · rename_i hno
    cases h
    refine ⟨rfl, rfl, fun x => ?_⟩
    by_cases hx : x = a
    · exact .inr (by simpa [hx] using hno)
    · exact .inl (update_of_ne hx _ _)
  · split at h
    · cases h
      exact ⟨rfl, rfl, fun _ => .inl rfl⟩
    · cases h
      exact ⟨rfl, rfl, fun _ => .inl rfl⟩
    · split at h
      · cases h
        exact ⟨rfl, rfl, fun _ => .inl rfl⟩
      · cases h

/-- A node keeps its flag. -/
def SecState.KeepsFlags (s s' : SecState) : Prop := ∀ x, s.deps.hasNode x = true → s'.tf x = s.tf x

/-- The sector gets no second flag, and none that its node does not have if the edge closes a
    cycle. -/
def SecState.Flagged (s : SecState) (a b : Sec) (tf : Option Nat) : Prop :=
  s.deps.hasNode a = true →
    tf = none ∨ s.tf a = tf ∨ s.tf a = none ∧ (addEdge s.deps a b).Acyclic

theorem secInstall_flagged (h : s.Flagged a b tf) :
    ∃ s', secInstall s a tf = some s' ∧
      (tf = none ∨ ¬(addEdge s.deps a b).Acyclic → s.KeepsFlags s') := by
  unfold secInstall
  split
  · rename_i hno
    refine ⟨_, rfl, fun _ x hx => update_of_ne ?_ _ _⟩
    rintro rfl
    simp [hx] at hno
  · rename_i hnode
    have htf := h (by simpa using hnode)
    split
    · refine ⟨_, rfl, fun hc x _ => ?_⟩
      by_cases hx : x = a
      · subst hx
        rcases hc with hc | hc <;> rcases htf with htf | htf | htf <;> simp_all
      · exact update_of_ne hx _ _
    · exact ⟨s, rfl, fun _ _ _ => rfl⟩
    · rename_i f g hf
      rw [if_pos (by simpa [hf] using htf)]
      exact ⟨s, rfl, fun _ _ _ => rfl⟩

/-- The search for a new edge is not misled: few nodes are ahead, and none, the new ones with 0
    included, bears its number. -/
def SecState.Fresh (s : SecState) (a b : Sec) : Prop :=
  ¬s.deps.Edge a b → ∃ S : Finset Sec, S.card ≤ maxVisit ∧ a ∈ S ∧ ∀ x ∈ S,
    s.mark x ≠ s.epoch + 1 ∧ (s.deps.hasNode x = false → s.epoch + 1 ≠ 0) ∧
      ∀ c, (addEdge s.deps a b).Edge x c → c ∈ S

/-- The search of a call finds out what it should, unless there are two ways to a node. -/
theorem noCycle_fresh (mark : Marks) (hd : s.deps.Acyclic) (h : s.Fresh a b)
    (hnewEdge : ¬s.deps.Edge a b)
    (hm : ∀ x, mark x = s.mark x ∨ mark x = 0 ∧ s.deps.hasNode x = false) :
    ∃ v M, noCycle (addEdge s.deps a b) (s.epoch + 1) (maxVisit + 1) a mark 0 = some (v, M) ∧
      (v ≠ 0 → (addEdge s.deps a b).Acyclic) ∧ ((addEdge s.deps a b).Tree a → v ≠ 0) := by
  obtain ⟨S, hcard, ha, hS⟩ := h hnewEdge
  have hnew : ∀ x ∈ S, mark x ≠ s.epoch + 1 := fun x hxS hx => by
    rcases hm x with h | ⟨h, hno⟩
    · exact (hS x hxS).1 (h ▸ hx)
    · exact (hS x hxS).2.1 hno (hx.symm.trans h)
  have hnone : 0 = marked S (s.epoch + 1) mark := by
    rw [marked, Finset.filter_false_of_mem hnew, Finset.card_empty]
  have hclosed : ∀ x ∈ S, ∀ c, (addEdge s.deps a b).Edge x c → c ∈ S := fun x hx => (hS x hx).2.2
  obtain ⟨v, M, hr, -, hclear⟩ :=
    noCycle_answers hclosed hcard (maxVisit + 1) a mark 0 ha hnone (by simp)
  refine ⟨v, M, hr, fun hv => addEdge_acyclic hd ((noCycle_short hr hv).not_cycle .refl),
    fun htree => ?_⟩
  refine (hclear (List.pairwise_singleton _ _) ?_).1
  refine List.forall_mem_singleton.mpr ⟨htree, fun z hz => hnew z ?_⟩
  induction hz with
  | refl => exact ha
  | tail _ hedge ih => exact hclosed _ ih _ hedge

/-- The ends of an edge that closes a cycle have other edges. -/
theorem addEdge_closes (hok : d.Ok) (hd : d.Acyclic) (hab : a ≠ b)
    (hc : ¬(addEdge d a b).Acyclic) : d.hasNode a = true ∧ d.hasNode b = true := by
  obtain ⟨x, hx⟩ := not_forall_not.mp hc
  obtain ⟨hxa, hbx⟩ := (way_cases hx).resolve_left (hd x)
  have hba := hbx.trans hxa
  rcases hba.cases_head, hba.cases_tail with ⟨h | ⟨c, hbc, -⟩, h' | ⟨e, -, hea⟩⟩
  · exact absurd h.symm hab
  · exact absurd h.symm hab
  · exact absurd h' hab
  have hout := (addEdge_edge.mp hbc).resolve_right fun h => hab h.1.symm
  have hin := (addEdge_edge.mp hea).resolve_right fun h => hab h.2
  exact ⟨(hok.hasNode hin).2, (hok.hasNode hout).1⟩

/-- **What a call does** once its nodes are installed: the edge is in and the graph is acyclic, or
    there was no tree ahead, and the graph is as before or the kernel stops. -/
theorem sysSecDepend_cases {s₁ s₂ : SecState} (hd : s.deps.Acyclic) (h : s.Fresh a b)
    (h₁ : secInstall s a tf = some s₁) (h₂ : secInstall s₁ b none = some s₂) :
    ((a = b ∨ a = 0) ∧ s.deps.hasNode a = false ∨ b = 0 ∧ s.deps.hasNode b = false) ∧
      ¬(s.deps.Edge a b ∨ (addEdge s.deps a b).Tree a) ∧ sysSecDepend s a b tf = none ∨
    ∃ r s', sysSecDepend s a b tf = some (r, s') ∧
      (r = .ok () ∧ s'.deps = addEdge s.deps a b ∧ (addEdge s.deps a b).Acyclic ∨
        r = .error .cycle ∧ s'.deps = s.deps ∧ s'.tf = s₂.tf ∧
          ¬(s.deps.Edge a b ∨ (addEdge s.deps a b).Tree a)) := by
  obtain ⟨hd₁, he₁, hm₁⟩ := secInstall_cases h₁
  obtain ⟨hd₂, he₂, hm₂⟩ := secInstall_cases h₂
  rw [hd₁] at hd₂
  rw [he₁] at he₂
  have hm : ∀ x, s₂.mark x = s.mark x ∨ s₂.mark x = 0 ∧ s.deps.hasNode x = false := fun x => by
    rcases hm₂ x with h | ⟨h, hno⟩
    · exact (hm₁ x).imp h.trans (And.imp_left h.trans)
    · exact .inr ⟨h, hd₁ ▸ hno⟩
  rw [sysSecDepend, h₁, Option.bind_some, h₂, Option.bind_some, hd₂, he₂]
  by_cases hold : (a, b) ∈ s.deps.edges
  · rw [if_pos hold]
    have hsame : addEdge s.deps a b = s.deps := if_pos hold
    exact .inr ⟨_, _, rfl, .inl ⟨rfl, by rw [hd₂, hsame], by rwa [hsame]⟩⟩
  obtain ⟨v, M, hr, hsound, hcomplete⟩ := noCycle_fresh s₂.mark hd h hold hm
  rw [if_neg hold]
  dsimp only
  rw [hr, Option.bind_some]
  dsimp only
  by_cases hv : v = 0
  · rw [if_neg (not_not.mpr hv)]
    have hno : ¬(s.deps.Edge a b ∨ (addEdge s.deps a b).Tree a) := fun h =>
      h.elim hold fun ht => hcomplete ht hv
    split
    · rename_i hfreed
      exact .inl ⟨by simpa using hfreed, hno, rfl⟩
    · exact .inr ⟨_, _, rfl, .inr ⟨rfl, removeEdge_addEdge hold, rfl, hno⟩⟩
  · rw [if_pos hv]
    exact .inr ⟨_, _, rfl, .inl ⟨rfl, rfl, hsound hv⟩⟩

end Depend

/-! ## 3. Runs -/

inductive SecOp where
  | depend (a b : Sec) (tf : Option Nat)
  | written (b : Sec)

/-- One call. `sec_written` does not survive that the node of sector 0 is freed either. -/
def SecOp.exec (s : SecState) : SecOp → Option SecState
  | depend a b tf => (sysSecDepend s a b tf).map Prod.snd
  | written b =>
    match secWritten s.deps b with
    | .ok d => if s.deps.hasNode 0 ∧ !d.hasNode 0 then none else some { s with deps := d }
    | .error _ => some s

def SecOp.Ok (s : SecState) : SecOp → Prop
  | depend a b _ => s.Fresh a b
  | written _ => True

/-- No sector waits for another. -/
def SecState.init : SecState := ⟨.empty, fun _ => none, fun _ => 0, 0⟩

/-- A run from the empty graph. -/
abbrev SecState.Built : SecState → Prop :=
  Run.Reaches (fun s op s' => SecOp.exec s op = some s') SecOp.Ok .init

/-- **No cycle is let in.** -/
theorem SecState.Built.acyclic {s : SecState} (h : s.Built) : s.deps.Ok ∧ s.deps.Acyclic := by
  refine h.invariant (I := fun s => s.deps.Ok ∧ s.deps.Acyclic) ⟨Deps.empty_ok, ?_⟩ ?_
  · intro x hx
    obtain ⟨c, hc, -⟩ := TransGen.head'_iff.mp hx
    cases hc
  intro s op s' hs hop hexec
  cases op with
  | depend a b tf =>
    obtain ⟨⟨r, s''⟩, hrun, rfl⟩ := Option.map_eq_some_iff.mp hexec
    obtain ⟨s₂, hinst, -⟩ := Option.bind_eq_some_iff.mp hrun
    obtain ⟨s₁, h₁, h₂⟩ := Option.bind_eq_some_iff.mp hinst
    rcases sysSecDepend_cases hs.2 hop h₁ h₂ with ⟨-, -, hnone⟩ | ⟨r', s', hrun', hcases⟩
    · cases hrun.symm.trans hnone
    obtain ⟨rfl, rfl⟩ := Prod.mk.inj (Option.some.inj (hrun.symm.trans hrun'))
    rcases hcases with ⟨-, hd, hac⟩ | ⟨-, hd, -⟩
    · exact hd ▸ ⟨addEdge_ok hs.1, hac⟩
    · exact hd ▸ hs
  | written b =>
    dsimp only [SecOp.exec] at hexec
    split at hexec
    · rename_i d hd
      split at hexec
      · cases hexec
      cases hexec
      have hout : ∀ c, ¬s.deps.Edge b c := (sysSecCanWrite_ok hs.1).mp (by
        unfold secWritten at hd
        unfold sysSecCanWrite
        split at hd
        · cases hd
        · rename_i hz
          rw [if_neg hz])
      obtain ⟨d', hd', hok, hedges⟩ := secWritten_ok hs.1 hout
      obtain rfl := Except.ok.inj (hd.symm.trans hd')
      exact ⟨hok, fun x hx => hs.2 x (.mono (fun a c h => ((hedges a c).mp h).1) x x hx)⟩
    · cases hexec
      exact hs

/-- In every graph that calls have built, a further call with memory for a node and an edge reports
    a cycle exactly if it would close one, and changes nothing then; otherwise it adds the edge. It
    does so if the edge is there already, a cycle is closed, or there is one way only from `a` to
    each node ahead of it, with the new edge. -/
theorem sysSecDepend_exact {s : SecState} (hs : s.Built) {a b : Sec} {tf : Option Nat}
    (hfresh : s.Fresh a b) (hflag : s.Flagged a b tf) (hself : a = b → s.deps.hasNode a = true)
    (htree : (addEdge s.deps a b).Acyclic → s.deps.Edge a b ∨ (addEdge s.deps a b).Tree a) :
    ∃ r s', sysSecDepend s a b tf = some (r, s') ∧
      (r = .error .cycle ↔ ¬(addEdge s.deps a b).Acyclic) ∧
      (r = .error .cycle → s'.deps = s.deps ∧ s.KeepsFlags s') ∧
      (r ≠ .error .cycle → r = .ok () ∧ s'.deps = addEdge s.deps a b) := by
  obtain ⟨s₁, h₁, htf₁⟩ := secInstall_flagged hflag
  have hd₁ := (secInstall_cases h₁).1
  obtain ⟨s₂, h₂, htf₂⟩ := secInstall_flagged (show s₁.Flagged b b none from fun _ => .inl rfl)
  obtain ⟨hok, hacyclic⟩ := hs.acyclic
  rcases sysSecDepend_cases hacyclic hfresh h₁ h₂ with ⟨hfreed, hno, -⟩ | ⟨r, s', hrun, hcases⟩
  · -- nothing is freed, since the ends of the edge have other edges
    by_cases hab : a = b
    · simp [← hab, hself hab] at hfreed
    · simp [addEdge_closes hok hacyclic hab fun h => hno (htree h)] at hfreed
  refine ⟨r, s', hrun, ?_⟩
  rcases hcases with ⟨rfl, hd, hac⟩ | ⟨rfl, hd, htf, hno⟩
  · exact ⟨by simp [hac], by simp, fun _ => ⟨rfl, hd⟩⟩
  · have hcyclic : ¬(addEdge s.deps a b).Acyclic := fun h => hno (htree h)
    refine ⟨by simp [hcyclic], fun _ => ⟨hd, fun x hx => ?_⟩, by simp⟩
    rw [htf, htf₂ (.inl rfl) x (hd₁ ▸ hx), htf₁ (.inr hcyclic) x hx]

/-- 1 waits for 2. That 2 waits for 1 is refused. -/
theorem sysSecDepend_exact_back : ∃ s s', SecOp.exec .init (.depend 1 2 (some 1)) = some s ∧
    sysSecDepend s 2 1 none = some (.error .cycle, s') ∧ s'.deps = s.deps := by
  have hfirst : SecState.init.Fresh 1 2 := fun _ => ⟨{1, 2}, by decide, by decide, fun x _ =>
    ⟨by simp [SecState.init], fun _ => by decide, fun c hc => by
      have hc' := addEdge_edge.mp hc
      simp_all [SecState.init, Deps.Edge, Deps.empty]⟩⟩
  obtain ⟨s, hexec, hdeps, hmark, hepoch⟩ : ∃ s,
      SecOp.exec .init (.depend 1 2 (some 1)) = some s ∧ s.deps = addEdge .empty 1 2 ∧
        (∀ x ∈ [1, 2], s.mark x ≠ s.epoch + 1) ∧ s.epoch + 1 ≠ 0 :=
    ⟨_, rfl, rfl, by decide, by decide⟩
  have hfresh : s.Fresh 2 1 := fun _ => ⟨{1, 2}, by decide, by decide, fun x hx =>
    ⟨hmark x (by simpa using hx), fun _ => hepoch, fun c hc => by
      rw [hdeps, addEdge_edge, addEdge_edge] at hc
      rcases hc with (hc | ⟨-, rfl⟩) | ⟨-, rfl⟩ <;> simp_all [Deps.Edge, Deps.empty]⟩⟩
  have hcycle : ¬(addEdge s.deps 2 1).Acyclic := fun h => h 1 <|
    .tail (.single (addEdge_edge.mpr (.inl (hdeps ▸ addEdge_edge.mpr (.inr ⟨rfl, rfl⟩)))))
      (addEdge_edge.mpr (.inr ⟨rfl, rfl⟩))
  obtain ⟨r, s', hrun, hiff, hkept, -⟩ := sysSecDepend_exact
    (Run.Reaches.refl.call (i := .depend 1 2 (some 1)) hfirst hexec) hfresh (fun _ => .inl rfl)
    (fun h => absurd h (by decide)) fun h => absurd h hcycle
  obtain rfl := hiff.mpr hcycle
  exact ⟨s, s', hexec, hrun, (hkept rfl).1⟩

/-- 2 and 3 wait for 4, and 1 for 2. That 1 waits for 3 closes no cycle, and is refused as one. -/
theorem two_ways_refused : ∃ s s', Run.execAll SecOp.exec
      [.depend 2 4 none, .depend 3 4 none, .depend 1 2 none] .init = some s ∧
    (addEdge s.deps 1 3).Acyclic ∧ sysSecDepend s 1 3 none = some (.error .cycle, s') := by
  refine ⟨_, _, rfl, fun x hx => ?_, rfl⟩
  have hup : ∀ e ∈ [(1, 3), (1, 2), (3, 4), (2, 4)], e.1 < e.2 := by decide
  have hlt := TransGen.mono (fun a c h => hup (a, c) h) x x hx
  rw [transGen_eq_self] at hlt
  exact lt_irrefl x hlt

end Exokernel.Xn
