import Mathlib

/-!
# Write dependencies between sectors — `ubb/dependency.c`

A block of metadata must not reach the disk before the blocks it points to. XN keeps
that order as a graph: an edge from sector `A` to sector `B` means that `A` may be
written only after `B`. A sector is writable when no edge leaves it, and writing it
removes the edges that lead to it.

**A range of `n` sectors is walked as `n/8` sectors.** The three range functions step
through consecutive sectors but stop after an eighth of them: what they do is right for
sectors that stand for whole blocks only.
-/
set_option autoImplicit false

namespace Exokernel.Xn

/-! ## 1. Errors — `ubb/xntypes.h` -/

/-- The `xn_err_t` results of the modelled functions. -/
inductive XnErr where
  | bogusType | cannotAlloc | cannotFree | typeError | notInCore | outOfMemory | registryMiss
  | registryHit | inCore | cannotDelete | tainted | cannotAccess | bogusIndex | bogusField
  | illegalOp | locked | bogusName | notFound | tooSmall | typeMiss | bogusEntry | dirtyBlocks
  | cycle | bogusCap | io
deriving DecidableEq, Repr

/-! ## 2. The graph -/

/-- `sec_t`. -/
abbrev Sec := Nat

/-- The edges, and for each sector the counts of `struct sec`. -/
structure Deps where
  edges : List (Sec × Sec)
  outs : Sec → Nat
  ins : Sec → Nat

/-- An empty graph, as `sec_init` leaves it. -/
def Deps.empty : Deps := ⟨[], fun _ => 0, fun _ => 0⟩

/-- `add_edge`, of an edge that may be there already. -/
def addEdge (d : Deps) (a b : Sec) : Deps :=
  if (a, b) ∈ d.edges then d
  else
    { edges := (a, b) :: d.edges
      outs := Function.update d.outs a (d.outs a + 1)
      ins := Function.update d.ins b (d.ins b + 1) }

/-- `remove_edge`. -/
def removeEdge (d : Deps) (e : Sec × Sec) : Deps where
  edges := d.edges.erase e
  outs := Function.update d.outs e.1 (d.outs e.1 - 1)
  ins := Function.update d.ins e.2 (d.ins e.2 - 1)

/-! ## 3. Sectors -/

/-- `sec_depend` on allocation, which cannot make a cycle. -/
def secDepend (d : Deps) (a b : Sec) : Deps := addEdge d a b

/-- `sys_sec_can_write`. -/
def sysSecCanWrite (d : Deps) (a : Sec) : Except XnErr Unit :=
  if d.outs a ≠ 0 then .error .tainted else .ok ()

/-- `sec_written`: the edges to a sector go, unless it should not have been written. -/
def secWritten (d : Deps) (b : Sec) : Except XnErr Deps :=
  if d.outs b ≠ 0 then .error .tainted
  else .ok ((d.edges.filter fun e => e.2 = b).foldl removeEdge d)

/-! ## 4. Ranges of sectors -/

/-- The sectors that a range function visits for `[a, a+n)`. -/
def visited (a n : Nat) : List Sec := (List.range (n / 8)).map (a + ·)

/-- `sec_depend_r`. -/
def secDependR (d : Deps) (a b n : Nat) : Deps := (visited b n).foldl (secDepend · a) d

/-- The loop of `sys_sec_can_write_r`. -/
def canWriteAll (d : Deps) : List Sec → Except XnErr Unit
  | [] => .ok ()
  | a :: as =>
    match sysSecCanWrite d a with
    | .error e => .error e
    | .ok () => canWriteAll d as

/-- `sys_sec_can_write_r`. -/
def sysSecCanWriteR (d : Deps) (a n : Nat) : Except XnErr Unit := canWriteAll d (visited a n)

/-- The loop of `sec_written_r`. What was done before a failure stays. -/
def writtenAll (d : Deps) : List Sec → Except XnErr Unit × Deps
  | [] => (.ok (), d)
  | b :: bs =>
    match secWritten d b with
    | .error e => (.error e, d)
    | .ok d => writtenAll d bs

/-- `sec_written_r`. -/
def secWrittenR (d : Deps) (b n : Nat) : Except XnErr Unit × Deps := writtenAll d (visited b n)

/-! ## 5. The search for cycles -/

/-- `MAX_VISIT`. -/
abbrev maxVisit : Nat := 128

/-- The number of the last search that met a node. -/
abbrev Marks := Sec → BitVec 32

/-- Where the edges from a sector lead. The code has them in the order of the nodes' addresses. -/
def Deps.succs (d : Deps) (a : Sec) : List Sec := (d.edges.filter fun e => e.1 = a).map Prod.snd

/-- The loop of `no_cycle`, which ends with 0 when a search does. -/
def searchAll (search : Sec → Marks → Nat → Option (Nat × Marks)) :
    List Sec → Marks → Nat → Option (Nat × Marks)
  | [], mark, visited => some (visited, mark)
  | b :: bs, mark, visited =>
    (search b mark visited).bind fun (visited, mark) =>
      if visited = 0 then some (0, mark) else searchAll search bs mark visited

/-- `no_cycle`: 0 if a node is met again. `none` is a `fatal`; nodes run out before the depth does. -/
def noCycle (d : Deps) (epoch : BitVec 32) : Nat → Sec → Marks → Nat → Option (Nat × Marks)
  | 0, _, _, _ => none
  | n + 1, a, mark, visited =>
    if mark a = epoch then some (0, mark)
    else if maxVisit ≤ visited then none
    else searchAll (noCycle d epoch n) (d.succs a) (Function.update mark a epoch) (visited + 1)

/-- The graph, and what else its nodes hold: the address of a flag, and the mark. -/
structure SecState where
  deps : Deps
  tf : Sec → Option Nat
  mark : Marks
  epoch : BitVec 32

/-- There is a node for the sector: one without edges is freed. -/
def Deps.hasNode (d : Deps) (a : Sec) : Bool := d.outs a ≠ 0 || d.ins a ≠ 0

/-- `sec_install`, with memory for a node. A second flag for a sector is a `fatal`. -/
def secInstall (s : SecState) (a : Sec) (tf : Option Nat) : Option SecState :=
  if !s.deps.hasNode a then
    some { s with tf := Function.update s.tf a tf, mark := Function.update s.mark a 0 }
  else
    match s.tf a, tf with
    | none, _ => some { s with tf := Function.update s.tf a tf }
    | some _, none => some s
    | some f, some g => if f = g then some s else none

/-- `sys_sec_depend`, with memory for an edge. The kernel does not survive that `remove_edge` frees
    the one node of an edge from `a` to `a` twice, or the node of sector 0. -/
def sysSecDepend (s : SecState) (a b : Sec) (tf : Option Nat) :
    Option (Except XnErr Unit × SecState) :=
  ((secInstall s a tf).bind (secInstall · b none)).bind fun s =>
    if (a, b) ∈ s.deps.edges then some (.ok (), s)
    else
      let d := addEdge s.deps a b
      (noCycle d (s.epoch + 1) (maxVisit + 1) a s.mark 0).bind fun (visited, mark) =>
        let s := { s with mark, epoch := s.epoch + 1 }
        if visited ≠ 0 then some (.ok (), { s with deps := d })
        else if (a = b ∨ a = 0) ∧ !s.deps.hasNode a ∨ b = 0 ∧ !s.deps.hasNode b then none
        else some (.error .cycle, { s with deps := removeEdge d (a, b) })

/-! ## 6. The counts agree with the edges -/

/-- The counts count the edges, and no edge is there twice. -/
structure Deps.Ok (d : Deps) : Prop where
  nodup : d.edges.Nodup
  outs : ∀ a, d.outs a = d.edges.countP fun e => e.1 = a
  ins : ∀ b, d.ins b = d.edges.countP fun e => e.2 = b

/-- There is an edge. -/
def Deps.Edge (d : Deps) (a b : Sec) : Prop := (a, b) ∈ d.edges

theorem Deps.empty_ok : Deps.empty.Ok := ⟨List.nodup_nil, fun _ => rfl, fun _ => rfl⟩

section Graph

variable {d : Deps} {a b : Sec}

theorem addEdge_ok (h : d.Ok) : (addEdge d a b).Ok := by
  unfold addEdge
  split
  · exact h
  rename_i hnew
  refine ⟨List.nodup_cons.mpr ⟨hnew, h.nodup⟩, fun a' => ?_, fun b' => ?_⟩
  · by_cases ha : a' = a
    · subst ha
      simp [h.outs a']
    · simp [Function.update_of_ne ha, h.outs a', Ne.symm ha]
  · by_cases hb : b' = b
    · subst hb
      simp [h.ins b']
    · simp [Function.update_of_ne hb, h.ins b', Ne.symm hb]

theorem addEdge_edge {a' b' : Sec} :
    (addEdge d a b).Edge a' b' ↔ d.Edge a' b' ∨ (a' = a ∧ b' = b) := by
  unfold addEdge Deps.Edge
  split
  · rename_i hold
    refine ⟨.inl, fun h => ?_⟩
    rcases h with h | ⟨rfl, rfl⟩
    · exact h
    · exact hold
  · simp only [List.mem_cons, Prod.mk.injEq]
    exact or_comm

theorem removeEdge_ok {e : Sec × Sec} (h : d.Ok) (he : e ∈ d.edges) : (removeEdge d e).Ok := by
  -- the edges at either end are counted alike
  have hend : ∀ (f : Sec × Sec → Sec) (n : Sec → Nat),
      (∀ a, n a = d.edges.countP fun x => f x = a) → ∀ a,
      Function.update n (f e) (n (f e) - 1) a = (d.edges.erase e).countP fun x => f x = a := by
    intro f n hn a
    have hq := hn a
    rw [(List.perm_cons_erase he).countP_eq, List.countP_cons] at hq
    by_cases ha : a = f e
    · subst ha
      simp only [decide_true, if_true] at hq
      simp only [Function.update_self]
      omega
    · simp only [Ne.symm ha, decide_false, Bool.false_eq_true, if_false] at hq
      simpa [Function.update_of_ne ha] using hq
  exact ⟨h.nodup.erase e, hend Prod.fst _ h.outs, hend Prod.snd _ h.ins⟩

theorem removeEdges_ok {es : List (Sec × Sec)} (h : d.Ok) (hnd : es.Nodup)
    (hes : ∀ e ∈ es, e ∈ d.edges) :
    (es.foldl removeEdge d).Ok
      ∧ ∀ e, e ∈ (es.foldl removeEdge d).edges ↔ e ∈ d.edges ∧ e ∉ es := by
  induction es generalizing d with
  | nil => exact ⟨h, by simp⟩
  | cons e es ih =>
    obtain ⟨hne, hnd⟩ := List.nodup_cons.mp hnd
    have hmem : ∀ x, x ∈ (removeEdge d e).edges ↔ x ≠ e ∧ x ∈ d.edges := fun x =>
      h.nodup.mem_erase_iff
    have hrest : ∀ x ∈ es, x ∈ (removeEdge d e).edges := fun x hx =>
      (hmem x).mpr ⟨fun hxe => hne (hxe ▸ hx), hes x (List.mem_cons_of_mem _ hx)⟩
    obtain ⟨hok, hedges⟩ := ih (removeEdge_ok h (hes e (by simp))) hnd hrest
    refine ⟨hok, fun x => ?_⟩
    rw [List.foldl_cons, hedges x, hmem x, List.mem_cons, not_or]
    tauto

theorem sysSecCanWrite_ok (h : d.Ok) : sysSecCanWrite d a = .ok () ↔ ∀ b, ¬d.Edge a b := by
  have hzero : d.outs a = 0 ↔ ∀ b, ¬d.Edge a b := by
    rw [h.outs a, List.countP_eq_zero]
    refine ⟨fun hno b he => hno _ he (by simp), fun hno e he hea => hno e.2 ?_⟩
    obtain rfl : e.1 = a := by simpa using hea
    exact he
  unfold sysSecCanWrite
  split
  · rename_i hpos
    exact ⟨fun hc => (nomatch hc), fun hno => absurd (hzero.mpr hno) hpos⟩
  · rename_i hz
    exact ⟨fun _ => hzero.mp (not_not.mp hz), fun _ => rfl⟩

/-- Writing a sector that no edge leaves removes the edges to it and no others. -/
theorem secWritten_ok (h : d.Ok) (hb : ∀ c, ¬d.Edge b c) :
    ∃ d', secWritten d b = .ok d' ∧ d'.Ok ∧ ∀ a c, d'.Edge a c ↔ d.Edge a c ∧ c ≠ b := by
  have hzero : d.outs b = 0 := by
    by_contra hne
    have hok := (sysSecCanWrite_ok h).mpr hb
    simp [sysSecCanWrite, hne] at hok
  obtain ⟨hok, hedges⟩ := removeEdges_ok h (h.nodup.filter fun e => e.2 = b) fun e he =>
    (List.mem_filter.mp he).1
  refine ⟨_, by simp [secWritten, hzero], hok, fun a c => ?_⟩
  unfold Deps.Edge
  rw [hedges]
  simp only [List.mem_filter, decide_eq_true_eq, not_and]
  exact ⟨fun ⟨he, hne⟩ => ⟨he, fun hc => hne he hc⟩, fun ⟨he, hne⟩ => ⟨he, fun _ hc => hne hc⟩⟩

end Graph

end Exokernel.Xn
