import Exokernel.Kern.Acl
import Exokernel.Kern.Ppage
import Exokernel.Lib.Run

/-!
# Access lists — what they grant, and where their entries are

What an access list grants should not depend on how it is laid out: the entries that
`acl_read` shows are the list, wherever they are stored. `TwoLevel` is the layout that
`acl_setsize` and `acl_mod` keep: no slot but the last one points to a list, and nothing in
that list points further.

**The pointer slot grants access itself.** `acl_access` goes on to compare its bytes as if
they were a name, and what is left there of the entry that was moved opens the page to whoever
could open it with that entry, also after the entry is gone.
-/
set_option autoImplicit false

namespace Exokernel

open List Nat

/-! ## 1. Two levels -/

/-- The entries as `acl_read` shows them. -/
def aclFlat (acl : List AclEntry) : List AclEntry :=
  match aclExt acl with
  | none => acl
  | some l => acl.dropLast ++ l

/-- None of the entries is a pointer. -/
def NoPtr (l : List AclEntry) : Prop := ∀ e ∈ l, e.isPtr = false

/-- A list on the heap: as `acl_setsize` makes it, and without pointers. -/
structure Below (l : List AclEntry) : Prop where
  nonempty : l ≠ []
  small : l.length ≤ eaclMax
  noPtr : NoPtr l

/-- Only the last slot may be a pointer. -/
structure TwoLevel (acl : List AclEntry) : Prop where
  nonempty : acl ≠ []
  above : NoPtr acl.dropLast
  below : ∀ l, aclExt acl = some l → Below l

section Layout

variable {as l : List AclEntry} {le n : AclEntry} {pos : Nat}

theorem aclExt_append : aclExt (as ++ [le]) = if le.isPtr then some le.list else none := by
  simp [aclExt]

theorem aclFlat_append :
    aclFlat (as ++ [le]) = as ++ if le.isPtr then le.list else [le] := by
  unfold aclFlat
  rw [aclExt_append]
  cases le.isPtr <;> simp

theorem NoPtr.twoLevel (h : NoPtr l) (hne : l ≠ []) : TwoLevel l := by
  refine ⟨hne, fun e he => h e (mem_of_mem_dropLast he), fun l' hl => ?_⟩
  have hlast : (l.getLast hne).isPtr = false := h _ (getLast_mem hne)
  simp [aclExt, List.getLast?_eq_some_getLast hne, hlast] at hl

theorem twoLevel_append : TwoLevel (as ++ [le]) ↔
    NoPtr as ∧ (le.isPtr = true → Below le.list) := by
  constructor
  · rintro ⟨-, habove, hbelow⟩
    exact ⟨by simpa using habove, fun hp => hbelow _ (by rw [aclExt_append, if_pos hp])⟩
  rintro ⟨habove, hbelow⟩
  refine ⟨by simp, by simpa using habove, fun l hl => ?_⟩
  rw [aclExt_append] at hl
  split at hl
  · rename_i hp
    cases hl
    exact hbelow hp
  · cases hl

theorem TwoLevel.exists_last {acl : List AclEntry} (h : TwoLevel acl) :
    ∃ as le, acl = as ++ [le] :=
  ⟨acl.dropLast, acl.getLast h.nonempty, (List.dropLast_append_getLast h.nonempty).symm⟩

/-- `acl_read` shows the flat list if there is room for it. -/
theorem aclRead_flat {acl : List AclEntry} {resLen : Nat} (h : TwoLevel acl)
    (hlen : (aclFlat acl).length ≤ resLen) : aclRead acl resLen = aclFlat acl := by
  obtain ⟨as, le, rfl⟩ := h.exists_last
  have hbelow := (twoLevel_append.mp h).2
  rw [aclFlat_append] at hlen ⊢
  unfold aclRead
  rw [aclExt_append]
  cases hp : le.isPtr with
  | false =>
    simp only [hp, Bool.false_eq_true, if_false] at hlen ⊢
    exact take_of_length_le hlen
  | true =>
    have hpos : 0 < le.list.length := length_pos_iff.mpr (hbelow hp).nonempty
    simp only [hp, if_true, length_append, length_cons, length_nil, Nat.add_sub_cancel] at hlen ⊢
    have hmin : min resLen as.length = as.length := by omega
    have hall : min (resLen - as.length) le.list.length = le.list.length := by omega
    rw [hmin, if_neg (by omega), hall]
    simp

/-- Where a store goes: to a slot above, to the list below, or nowhere. -/
theorem aclStore_append : aclStore n (as ++ [le]) pos =
    if pos < as.length then some (as.set pos n ++ [le])
    else if le.isPtr then
      (aclStore n le.list (posBelow (pos - as.length))).map fun l => as ++ [.mk le.cap l]
    else if pos = as.length then some (as ++ [n]) else none := by
  induction as generalizing pos with
  | nil =>
    cases le with
    | mk c l =>
      by_cases hp : (AclEntry.mk c l).isPtr = true
      · simp [aclStore, AclEntry.storeBelow, hp, AclEntry.list, AclEntry.cap, Function.comp_def]
      · simp [aclStore, hp]
  | cons a as ih =>
    have hne : (as ++ [le]).isEmpty = false := by simp
    rw [cons_append, aclStore, hne, Bool.false_and, if_neg (by simp)]
    cases pos with
    | zero => simp
    | succ pos =>
      rw [if_neg (by simp), Nat.add_sub_cancel, ih, length_cons, Nat.add_sub_add_right]
      by_cases hlt : pos < as.length
      · simp [hlt]
      have hlt' : ¬pos + 1 < as.length + 1 := by omega
      rw [if_neg hlt, if_neg hlt']
      cases hp : le.isPtr with
      | true => simp [Function.comp_def]
      | false =>
        by_cases heq : pos = as.length
        · simp [heq]
        · simp [heq]

theorem aclStore_noPtr (h : NoPtr l) :
    aclStore n l pos = if pos < l.length then some (l.set pos n) else none := by
  induction l generalizing pos with
  | nil => rfl
  | cons e es ih =>
    have he : e.isPtr = false := h e (by simp)
    rw [aclStore, he, Bool.and_false, if_neg (by simp)]
    cases pos with
    | zero => simp
    | succ pos =>
      rw [if_neg (by simp), Nat.add_sub_cancel, ih fun x hx => h x (mem_cons_of_mem _ hx)]
      by_cases hlt : pos < es.length
      · simp [hlt]
      · simp [hlt]

end Layout

/-! ## 2. Calls -/

/-- `acl_setsize` and `acl_mod`, with the address that `malloc` returns. -/
inductive AclCall where
  | setsize (size : BitVec 16) (mem : Option (BitVec 32))
  | mod (c : Cap) (pos : BitVec 16) (n : Option Cap)

def AclCall.exec (acl : List AclEntry) : AclCall → Except Errno (List AclEntry)
  | .setsize size mem => aclSetsize acl size.toNat mem
  | .mod c pos n => aclModify c acl pos.toNat n

/-- A call that fails leaves the list as it was. -/
def AclCall.Step (acl : List AclEntry) (call : AclCall) (acl' : List AclEntry) : Prop :=
  call.exec acl = .ok acl' ∨ (∃ r, call.exec acl = .error r) ∧ acl' = acl

/-- The lists that calls make of one that was initialised: it had no pointers. -/
def AclReachable (acl : List AclEntry) : Prop :=
  ∃ acl₀, acl₀ ≠ [] ∧ NoPtr acl₀ ∧ Run.Reaches AclCall.Step (fun _ _ => True) acl₀ acl

section Calls

variable {acl acl' as : List AclEntry} {le : AclEntry} {size pos : Nat}

theorem isPtr_zero : AclEntry.zero.isPtr = false := rfl

theorem modEntry_noPtr {n : Option Cap} {u : Unit} (h : modCheck pos n = .ok u) :
    (modEntry n).isPtr = false := by
  cases n with
  | none => rfl
  | some n =>
    unfold modCheck at h
    dsimp only at h
    split at h
    · cases h
    split at h
    · cases h
    rename_i hptr
    cases hv : n.valid with
    | false => simp [modEntry, hv, isPtr_zero]
    | true =>
      have hi : n.isptr = false := by simpa [hv] using hptr
      simp [modEntry, hv, AclEntry.isPtr, AclEntry.ofCap, AclEntry.cap, hi]

theorem eaclMake_append (n : Nat) : eaclMake (as ++ [le]) n =
    if le.isPtr then le.list.take n ++ List.replicate (n - min n le.list.length) .zero
    else le :: List.replicate (n - 1) .zero := by
  unfold eaclMake
  rw [aclExt_append]
  cases le.isPtr <;> simp

theorem pointTo_isPtr (e : AclEntry) (l : List AclEntry) (addr : BitVec 32) :
    (e.pointTo l addr).isPtr = true := rfl

theorem pointTo_list (e : AclEntry) (l : List AclEntry) (addr : BitVec 32) :
    (e.pointTo l addr).list = l := rfl

/-- The new list has the length that was asked for, and no pointers. -/
theorem eaclMake_spec (h : TwoLevel (as ++ [le])) {n : Nat} (hn : 0 < n) :
    (eaclMake (as ++ [le]) n).length = n ∧ NoPtr (eaclMake (as ++ [le]) n) := by
  obtain ⟨-, hbelow⟩ := twoLevel_append.mp h
  rw [eaclMake_append]
  cases hp : le.isPtr with
  | true =>
    refine ⟨by simp, fun e he => ?_⟩
    rcases mem_append.mp he with he | he
    · exact (hbelow hp).noPtr e (mem_of_mem_take he)
    · rw [eq_of_mem_replicate he]
      rfl
  | false =>
    refine ⟨by simp; omega, fun e he => ?_⟩
    rcases mem_cons.mp he with rfl | he
    · exact hp
    · rw [eq_of_mem_replicate he]
      rfl

theorem aclSetsize_grow {mem : Option (BitVec 32)} (hsize : (as ++ [le]).length < size)
    (h : aclSetsize (as ++ [le]) size mem = .ok acl') :
    ∃ addr, size - (as ++ [le]).length ≤ eaclMax ∧
      acl' = as ++ [le.pointTo (eaclMake (as ++ [le]) (size - (as ++ [le]).length)) addr] := by
  unfold aclSetsize at h
  rw [if_neg (by omega)] at h
  split at h
  · cases h
  rename_i hmax
  cases mem with
  | none => cases h
  | some addr =>
    refine ⟨addr, Nat.le_of_not_lt hmax, ?_⟩
    dsimp only at h
    rw [← Except.ok.inj h, length_append, length_singleton, Nat.add_sub_cancel, modify_eq_take_drop]
    simp

/-- `acl_setsize` to a size within the slots: the first entry of the list below comes back. -/
theorem aclSetsize_shrink {mem : Option (BitVec 32)} (hsize : size ≤ (as ++ [le]).length)
    (h : aclSetsize (as ++ [le]) size mem = .ok acl') :
    acl' = as ++ [le] ∨ ∃ e, le.isPtr = true ∧ e ∈ le.list ∧ acl' = as ++ [e] := by
  unfold aclSetsize at h
  rw [if_pos hsize, aclExt_append] at h
  cases hp : le.isPtr with
  | false =>
    simp only [hp, Bool.false_eq_true, if_false] at h
    exact .inl (Except.ok.inj h).symm
  | true =>
    simp only [hp, if_true] at h
    cases hl : le.list with
    | nil =>
      simp only [hl] at h
      exact .inl (Except.ok.inj h).symm
    | cons e es =>
      simp only [hl] at h
      exact .inr ⟨e, rfl, by simp, by rw [← Except.ok.inj h]; simp⟩

theorem aclModify_ok {c : Cap} {n : Option Cap} (h : aclModify c acl pos n = .ok acl') :
    aclStore (modEntry n) acl pos = some acl' ∧ modCheck pos n = .ok () := by
  unfold aclModify at h
  split at h
  · cases h
  split at h
  · cases h
  rename_i hs
  cases hm : modCheck pos n with
  | error r => rw [hm] at h; cases h
  | ok u =>
    rw [hm] at h
    cases h
    exact ⟨hs, rfl⟩

theorem TwoLevel.store {n : AclEntry} (h : TwoLevel acl) (hn : n.isPtr = false)
    (hs : aclStore n acl pos = some acl') : TwoLevel acl' := by
  obtain ⟨as, le, rfl⟩ := h.exists_last
  obtain ⟨habove, hbelow⟩ := twoLevel_append.mp h
  have hset : ∀ {l : List AclEntry} {i : Nat}, NoPtr l → NoPtr (l.set i n) := by
    intro l i hl e he
    rcases mem_or_eq_of_mem_set he with he | rfl
    · exact hl e he
    · exact hn
  rw [aclStore_append] at hs
  split at hs
  · cases hs
    exact twoLevel_append.mpr ⟨hset habove, hbelow⟩
  split at hs
  · rename_i hp
    obtain ⟨hne, hsmall, hl⟩ := hbelow hp
    rw [aclStore_noPtr hl] at hs
    split at hs
    · cases hs
      refine twoLevel_append.mpr ⟨habove, fun _ => ⟨?_, ?_, hset hl⟩⟩
      · intro hnil
        exact hne (by simpa [AclEntry.list] using hnil)
      · simpa [AclEntry.list] using hsmall
    · cases hs
  split at hs
  · cases hs
    exact twoLevel_append.mpr ⟨habove, fun hp => by rw [hn] at hp; cases hp⟩
  · cases hs

theorem TwoLevel.step {call : AclCall} (h : TwoLevel acl) (hstep : call.Step acl acl') :
    TwoLevel acl' := by
  rcases hstep with hok | ⟨-, rfl⟩
  · cases call with
    | mod c pos n =>
      obtain ⟨hs, hm⟩ := aclModify_ok hok
      exact h.store (modEntry_noPtr hm) hs
    | setsize size mem =>
      obtain ⟨as, le, rfl⟩ := h.exists_last
      obtain ⟨habove, hbelow⟩ := twoLevel_append.mp h
      by_cases hsize : size.toNat ≤ (as ++ [le]).length
      · rcases aclSetsize_shrink hsize hok with rfl | ⟨e, hp, he, rfl⟩
        · exact h
        refine twoLevel_append.mpr ⟨habove, fun hpe => ?_⟩
        rw [(hbelow hp).noPtr e he] at hpe
        cases hpe
      · obtain ⟨addr, hmax, rfl⟩ := aclSetsize_grow (by omega) hok
        obtain ⟨hlen, hno⟩ := eaclMake_spec h (n := size.toNat - (as ++ [le]).length) (by omega)
        refine twoLevel_append.mpr ⟨habove, fun _ => ⟨fun hnil => ?_, by rwa [pointTo_list, hlen], hno⟩⟩
        rw [pointTo_list] at hnil
        rw [hnil] at hlen
        simp only [length_nil] at hlen
        omega
  · exact h

theorem AclReachable.twoLevel (h : AclReachable acl) : TwoLevel acl := by
  obtain ⟨acl₀, hne, hno, hrun⟩ := h
  exact hrun.invariant (hno.twoLevel hne) fun _ _ _ hI _ hstep => hI.step hstep

end Calls

/-! ## 3. What is granted -/

/-- The entry gives the capability the permissions: it is valid and no pointer, has all of
    them, and its name starts with the capability's. -/
def Opens (c : Cap) (perm : BitVec 3) (e : AclEntry) : Prop :=
  e.cap.valid = true ∧ e.cap.isptr = false ∧ entryMatches c perm e.cap = true

/-- The bytes of the pointer slot, read as a name, match the capability. -/
def Stale (c : Cap) (perm : BitVec 3) (acl : List AclEntry) : Prop :=
  ∃ e, acl.getLast? = some e ∧ e.isPtr = true ∧ entryMatches c perm e.cap = true

instance (c : Cap) (perm : BitVec 3) (e : AclEntry) : Decidable (Opens c perm e) :=
  inferInstanceAs (Decidable (_ ∧ _ ∧ _))

section Access

variable {c : Cap} {perm : BitVec 3} {as l acl : List AclEntry} {le : AclEntry}

theorem listGrants_iff : listGrants c perm l = true ↔ ∃ e ∈ l, e.grants c perm = true := by
  induction l with
  | nil => simp [listGrants]
  | cons e es ih => simp [listGrants, ih]

theorem grants_noPtr {e : AclEntry} (h : e.isPtr = false) :
    e.grants c perm = true ↔ Opens c perm e := by
  obtain ⟨d, l⟩ := e
  simp only [AclEntry.isPtr, AclEntry.cap, Bool.and_eq_false_iff] at h
  simp only [AclEntry.grants, Opens, AclEntry.cap, Bool.and_eq_true, Bool.or_eq_true]
  cases hv : d.valid with
  | false => simp
  | true =>
    have hi : d.isptr = false := by simpa [hv] using h
    simp [hi]

theorem listGrants_noPtr (h : NoPtr l) :
    listGrants c perm l = true ↔ ∃ e ∈ l, Opens c perm e := by
  rw [listGrants_iff]
  exact exists_congr fun e => and_congr_right fun he => grants_noPtr (h e he)

/-- **The flat list decides, and the pointer slot.** -/
theorem listGrants_flat (h : TwoLevel acl) :
    listGrants c perm acl = true ↔ (∃ e ∈ aclFlat acl, Opens c perm e) ∨ Stale c perm acl := by
  obtain ⟨as, le, rfl⟩ := h.exists_last
  obtain ⟨habove, hbelow⟩ := twoLevel_append.mp h
  have hsplit : listGrants c perm (as ++ [le]) = true ↔
      (∃ e ∈ as, Opens c perm e) ∨ le.grants c perm = true := by
    rw [listGrants_iff, ← listGrants_noPtr habove, listGrants_iff]
    simp [or_and_right, exists_or]
  have hstale : Stale c perm (as ++ [le]) ↔ le.isPtr = true ∧ entryMatches c perm le.cap = true := by
    simp [Stale]
  rw [hsplit, aclFlat_append, hstale]
  simp only [mem_append, or_and_right, exists_or]
  cases hp : le.isPtr with
  | false => simp [grants_noPtr hp]
  | true =>
    obtain ⟨d, l⟩ := le
    have hptr : d.valid = true ∧ d.isptr = true := by
      simpa [AclEntry.isPtr, AclEntry.cap] using hp
    have hl : listGrants c perm l = true ↔ ∃ e ∈ l, Opens c perm e :=
      listGrants_noPtr (hbelow hp).noPtr
    simp only [AclEntry.grants, hptr.1, hptr.2, Bool.true_and, Bool.or_eq_true, hl, AclEntry.list,
      AclEntry.cap, if_true, true_and, or_assoc]

theorem aclAccess_ok : aclAccess c acl perm = .ok () ↔
    c.valid = true ∧ perm &&& c.perm = perm ∧ listGrants c perm acl = true := by
  unfold aclAccess
  cases hv : c.valid with
  | false => simp
  | true =>
    by_cases hp : perm &&& c.perm = perm
    · cases hg : listGrants c perm acl <;> simp [hp]
    · simp [hp]

end Access

/-- **Access is decided by the flat list just if a pointer slot that matches is not alone.** -/
theorem acl_access_exact_iff {acl : List AclEntry} (h : AclReachable acl) (c : Cap)
    (perm : BitVec 3) :
    (aclAccess c acl perm = .ok () ↔
      c.valid = true ∧ perm &&& c.perm = perm ∧ ∃ e ∈ aclFlat acl, Opens c perm e) ↔
    (c.valid = true → perm &&& c.perm = perm → Stale c perm acl →
      ∃ e ∈ aclFlat acl, Opens c perm e) := by
  rw [aclAccess_ok, listGrants_flat h.twoLevel]
  constructor
  · intro hiff hv hp hstale
    exact (hiff.mp ⟨hv, hp, .inr hstale⟩).2.2
  intro himp
  constructor
  · rintro ⟨hv, hp, hopen | hstale⟩
    · exact ⟨hv, hp, hopen⟩
    · exact ⟨hv, hp, himp hv hp hstale⟩
  · rintro ⟨hv, hp, hopen⟩
    exact ⟨hv, hp, .inl hopen⟩

/-- A capability named by at most one byte. -/
def sampleCap (len : BitVec 3) (b : BitVec 8) : Cap := ⟨aclAll, true, false, len, fun _ => b⟩

/-- The first entry is for the capability `7.7`, the second one for the capability `5`. -/
def sampleAcl : List AclEntry := [.ofCap (sampleCap 2 7), .ofCap (sampleCap 1 5)]

/-- The list is extended by one entry. -/
def grownAcl : List AclEntry :=
  [.ofCap (sampleCap 2 7), (AclEntry.ofCap (sampleCap 1 5)).pointTo [.ofCap (sampleCap 1 5)] 4096]

/-- Then the entry for the capability `5` is removed. -/
def revokedAcl : List AclEntry :=
  [.ofCap (sampleCap 2 7), (AclEntry.ofCap (sampleCap 1 5)).pointTo [.zero] 4096]

theorem sampleAcl_noPtr : NoPtr sampleAcl := by
  simp [NoPtr, sampleAcl, AclEntry.isPtr, sampleCap]

theorem grownAcl_reachable : AclReachable grownAcl :=
  ⟨sampleAcl, by simp [sampleAcl], sampleAcl_noPtr,
    Run.Reaches.refl.call (i := .setsize 3 (some 4096)) trivial (.inl rfl)⟩

theorem acl_access_exact_iff_grown :
    aclAccess (sampleCap 1 5) grownAcl aclW = .ok () ↔
      (sampleCap 1 5).valid = true ∧ aclW &&& (sampleCap 1 5).perm = aclW ∧
        ∃ e ∈ aclFlat grownAcl, Opens (sampleCap 1 5) aclW e :=
  (acl_access_exact_iff grownAcl_reachable (sampleCap 1 5) aclW).mpr fun _ _ _ =>
    ⟨.ofCap (sampleCap 1 5), by simp [aclFlat, aclExt, grownAcl, pointTo_isPtr, pointTo_list],
      by decide⟩

/-- The capability is in no entry of the list any more, and opens the page all the same. -/
theorem revoked_capability_opens :
    AclReachable revokedAcl ∧
      aclAccess (sampleCap 1 5) revokedAcl aclW = .ok () ∧
      ¬∃ e ∈ aclFlat revokedAcl, Opens (sampleCap 1 5) aclW e := by
  refine ⟨?_, rfl, ?_⟩
  · obtain ⟨acl₀, hne, hno, hrun⟩ := grownAcl_reachable
    exact ⟨acl₀, hne, hno, hrun.call (i := .mod (sampleCap 2 7) 2 none) trivial (.inl rfl)⟩
  have hflat : aclFlat revokedAcl = [.ofCap (sampleCap 2 7), .zero] := rfl
  rw [hflat]
  decide

/-! ## 4. Where the entries are -/

section Positions

variable {acl acl' as : List AclEntry} {le n : AclEntry} {c : Cap} {pos : Nat} {m : Option Cap}

/-- The position is one of the slots, or there is no pointer. -/
def Direct (acl : List AclEntry) (pos : Nat) : Prop := aclExt acl = none ∨ pos < acl.length - 1

/-- A store at a position that is counted alike by all changes the entry at that position. -/
theorem aclStore_direct (h : TwoLevel acl) (hd : Direct acl pos) :
    (pos < (aclFlat acl).length → ∃ acl', aclStore n acl pos = some acl') ∧
      ∀ acl', aclStore n acl pos = some acl' → n.isPtr = false →
        aclFlat acl' = (aclFlat acl).set pos n := by
  obtain ⟨as, le, rfl⟩ := h.exists_last
  unfold Direct at hd
  rw [aclExt_append, length_append, length_singleton, Nat.add_sub_cancel] at hd
  rw [aclFlat_append, aclStore_append]
  by_cases hlt : pos < as.length
  · rw [if_pos hlt]
    refine ⟨fun _ => ⟨_, rfl⟩, fun acl' hs _ => ?_⟩
    cases hs
    rw [aclFlat_append, set_append, if_pos hlt]
  have hp : le.isPtr = false := by
    rcases hd with hd | hd
    · simpa using hd
    · exact absurd hd hlt
  simp only [if_neg hlt, hp, Bool.false_eq_true, if_false]
  refine ⟨fun hpos => ⟨as ++ [n], ?_⟩, fun acl' hs hn => ?_⟩
  · rw [if_pos (by simp at hpos; omega)]
  split at hs
  · rename_i heq
    cases hs
    rw [aclFlat_append, hn, heq]
    simp
  · cases hs

/-- Behind a pointer slot a position means the entry before it, and the position of the slot
    means none. -/
theorem aclStore_indirect (h : TwoLevel acl) (hd : ¬Direct acl pos) (hpos : pos < 2 ^ 32) :
    (aclStore n acl pos = none ↔ pos = acl.length - 1 ∨ (aclFlat acl).length < pos) ∧
      ∀ acl', aclStore n acl pos = some acl' →
        acl.length ≤ pos ∧ aclFlat acl' = (aclFlat acl).set (pos - 1) n := by
  obtain ⟨as, le, rfl⟩ := h.exists_last
  obtain ⟨-, hbelow⟩ := twoLevel_append.mp h
  simp only [Direct, aclExt_append, length_append, length_singleton,
    Nat.add_sub_cancel, not_or, not_lt] at hd
  have hp : le.isPtr = true := by simpa using hd.1
  obtain ⟨hne, hsmall, hno⟩ := hbelow hp
  have hwrap : pos = as.length ∧ le.list.length ≤ posBelow (pos - as.length) ∨
      as.length < pos ∧ posBelow (pos - as.length) = pos - 1 - as.length := by
    unfold posBelow
    simp only [eaclMax] at hsmall
    omega
  rw [aclStore_append, if_neg (by omega), aclStore_noPtr hno, aclFlat_append]
  simp only [hp, if_true, length_append, length_singleton, Nat.add_sub_cancel]
  refine ⟨?_, fun acl' hs => ?_⟩
  · split
    · simp only [Option.map_some, reduceCtorEq, false_iff]
      omega
    · simp only [Option.map_none, true_iff]
      omega
  split at hs
  · rename_i hlt
    cases hs
    have hgt : as.length < pos := by omega
    have hptr : (AclEntry.mk le.cap (le.list.set (posBelow (pos - as.length)) n)).isPtr = true := hp
    refine ⟨by omega, ?_⟩
    rw [aclFlat_append, if_pos hptr, set_append, if_neg (by omega)]
    simp only [AclEntry.list]
    rw [show posBelow (pos - as.length) = pos - 1 - as.length by omega]
  · cases hs

/-- A larger size makes a list that is one entry shorter than that, with the old entries
    where they were. -/
theorem aclSetsize_flat {size : Nat} {mem : Option (BitVec 32)} (h : TwoLevel acl)
    (hsize : acl.length < size) (hok : aclSetsize acl size mem = .ok acl') :
    (aclFlat acl').length = size - 1 ∧
      ∀ i < size - 1, i < (aclFlat acl).length → (aclFlat acl')[i]? = (aclFlat acl)[i]? := by
  obtain ⟨as, le, rfl⟩ := h.exists_last
  obtain ⟨addr, -, rfl⟩ := aclSetsize_grow hsize hok
  have hn : 0 < size - (as ++ [le]).length := by omega
  obtain ⟨hlen, -⟩ := eaclMake_spec h hn
  rw [aclFlat_append, if_pos (pointTo_isPtr _ _ _), pointTo_list, aclFlat_append]
  have hl : (as ++ [le]).length = as.length + 1 := by simp
  refine ⟨by rw [length_append, hlen]; omega, fun i hi hold => ?_⟩
  by_cases hlt : i < as.length
  · rw [List.getElem?_append_left hlt, List.getElem?_append_left hlt]
  rw [List.getElem?_append_right (by omega), List.getElem?_append_right (by omega), eaclMake_append]
  rw [length_append] at hold
  cases hp : le.isPtr with
  | true =>
    simp only [hp, if_true] at hold ⊢
    rw [List.getElem?_append_left (by rw [length_take]; omega), List.getElem?_take_of_lt (by omega)]
  | false =>
    simp only [hp, Bool.false_eq_true, if_false, length_singleton] at hold ⊢
    rw [show i - as.length = 0 by omega]
    rfl

end Positions

/-- **An extensible list is a flat one as far as its slots go.** A position in a slot, or in a
    list without a pointer, is the position that `acl_read` shows. Behind the slots it is one
    more than that, and the position of the pointer slot is refused. A larger size keeps the
    old entries, in a list that is one entry shorter than the size. -/
theorem acl_is_flat {acl : List AclEntry} (h : AclReachable acl) :
    (∀ resLen, (aclFlat acl).length ≤ resLen → aclRead acl resLen = aclFlat acl) ∧
    (∀ c (pos : BitVec 16) n, Direct acl pos.toNat →
      (∀ acl', aclModify c acl pos.toNat n = .ok acl' →
        aclFlat acl' = (aclFlat acl).set pos.toNat (modEntry n)) ∧
      (pos.toNat < (aclFlat acl).length → aclAccess c acl aclMod = .ok () →
        modCheck pos.toNat n = .ok () → ∃ acl', aclModify c acl pos.toNat n = .ok acl')) ∧
    (∀ c (pos : BitVec 16) n acl', ¬Direct acl pos.toNat → aclModify c acl pos.toNat n = .ok acl' →
      acl.length ≤ pos.toNat ∧ aclFlat acl' = (aclFlat acl).set (pos.toNat - 1) (modEntry n)) ∧
    (∀ (size : BitVec 16) mem acl', acl.length < size.toNat →
      aclSetsize acl size.toNat mem = .ok acl' →
        (aclFlat acl').length = size.toNat - 1 ∧
        ∀ i < size.toNat - 1, i < (aclFlat acl).length →
          (aclFlat acl')[i]? = (aclFlat acl)[i]?) := by
  have htwo := h.twoLevel
  refine ⟨fun _ hlen => aclRead_flat htwo hlen, fun c pos n hd => ⟨fun acl' hok => ?_, ?_⟩,
    fun c pos n acl' hd hok => ?_, fun size mem acl' hsize hok => aclSetsize_flat htwo hsize hok⟩
  · obtain ⟨hs, hm⟩ := aclModify_ok hok
    exact (aclStore_direct htwo hd).2 acl' hs (modEntry_noPtr hm)
  · intro hpos hacc hm
    obtain ⟨acl', hs⟩ := (aclStore_direct (n := modEntry n) htwo hd).1 hpos
    exact ⟨acl', by simp [aclModify, hacc, hs, hm, Except.map]⟩

  · obtain ⟨hs, -⟩ := aclModify_ok hok
    have hpos : pos.toNat < 2 ^ 32 := by omega
    exact (aclStore_indirect htwo hd hpos).2 acl' hs

theorem acl_is_flat_grown :
    aclFlat [.ofCap (sampleCap 3 9),
        (AclEntry.ofCap (sampleCap 1 5)).pointTo [.ofCap (sampleCap 1 5)] 4096] =
      (aclFlat grownAcl).set 0 (.ofCap (sampleCap 3 9)) :=
  (((acl_is_flat grownAcl_reachable).2.1 (sampleCap 2 7) 0 (some (sampleCap 3 9))
    (.inr (by decide))).1 _ rfl)

/-- Of the two entries that `acl_read` shows the second one is refused at its position and
    changed at the next one; the list has been asked to have three. -/
theorem positions_off_by_one :
    AclReachable grownAcl ∧ aclSetsize sampleAcl 3 (some 4096) = .ok grownAcl ∧
      aclRead grownAcl 3 = sampleAcl ∧
      aclModify (sampleCap 2 7) grownAcl 1 none = .error .capInvalid ∧
      aclModify (sampleCap 2 7) grownAcl 2 none = .ok revokedAcl ∧
      aclRead revokedAcl 3 = [.ofCap (sampleCap 2 7), .zero] :=
  ⟨grownAcl_reachable, rfl, rfl, rfl, rfl, rfl⟩

/-! ## 5. Fresh lists -/

/-- `ppage_acl_zero`. -/
def ppageAclZero (pp : Ppage) : Ppage := { pp with acl := aclInit pp.acl pp.acl.length }

section Fresh

variable {acl : List AclEntry}

/-- The capability that every valid entry lets in, for reading. -/
def anyCap : Cap := ⟨0, true, false, 0, fun _ => 0⟩

theorem grants_anyCap {e : AclEntry} (h : e.cap.valid = true) : e.grants anyCap aclR = true := by
  obtain ⟨d, l⟩ := e
  have hv : d.valid = true := h
  have hm : entryMatches anyCap aclR d = true := by
    simp [entryMatches, anyCap, aclR, nameEq, BitVec.le_def]
  simp [AclEntry.grants, hv, hm]

/-- A list grants nothing to anybody just if none of its entries is valid. -/
theorem denies_all_iff :
    (∀ c perm, aclAccess c acl perm ≠ .ok ()) ↔ ∀ e ∈ acl, e.cap.valid = false := by
  constructor
  · intro hdeny e he
    by_contra hv
    have hg : listGrants anyCap aclR acl = true :=
      listGrants_iff.mpr ⟨e, he, grants_anyCap (by simpa using hv)⟩
    exact hdeny anyCap aclR (aclAccess_ok.mpr ⟨rfl, by decide, hg⟩)
  · intro hinv c perm hok
    obtain ⟨e, he, hg⟩ := listGrants_iff.mp (aclAccess_ok.mp hok).2.2
    obtain ⟨d, l⟩ := e
    have hv : d.valid = false := hinv _ he
    simp [AclEntry.grants, hv] at hg

/-- `acl_init` leaves all entries but the first as they are. -/
theorem mem_aclInit : (∀ e ∈ aclInit acl acl.length, e.cap.valid = false) ↔
    ∀ e ∈ acl.tail, e.cap.valid = false := by
  cases acl with
  | nil => simp [aclInit]
  | cons e es => simp [aclInit_cons]

end Fresh

/-- What is asked of `acl_add`: it succeeds just if there is room, and puts the entry into a
    place that was free. -/
def AddsOne (acl : List AclEntry) (x : AclEntry) : Prop :=
  ((∃ acl', aclAdd acl x = .ok acl') ↔ ∃ e ∈ acl, e.cap.valid = false) ∧
  ∀ acl', aclAdd acl x = .ok acl' →
    ∃ i e, acl[i]? = some e ∧ e.cap.valid = false ∧ acl' = acl.set i x

/-- **Both loops look at the first entry only.** A fresh list denies everybody just if all
    the other entries were invalid before; an entry is added as it should be just if the
    first one is free or none is. -/
theorem fresh_lists_iff (acl : List AclEntry) (x : AclEntry) :
    ((∀ c perm, aclAccess c (aclInit acl acl.length) perm ≠ .ok ()) ↔
      ∀ e ∈ acl.tail, e.cap.valid = false) ∧
    (∀ pp : Ppage, (∀ c perm, aclAccess c (ppageAclZero pp).acl perm ≠ .ok ()) ↔
      ∀ e ∈ pp.acl.tail, e.cap.valid = false) ∧
    (AddsOne acl x ↔
      (∀ e, acl.head? = some e → e.cap.valid = false) ∨ ∀ e ∈ acl, e.cap.valid = true) := by
  refine ⟨denies_all_iff.trans mem_aclInit, fun pp => denies_all_iff.trans mem_aclInit, ?_⟩
  unfold AddsOne
  cases acl with
  | nil => simp [aclAdd_nil]
  | cons e es =>
    rw [aclAdd_cons]
    cases hv : e.cap.valid with
    | false =>
      simp only [if_true]
      refine iff_of_true ⟨⟨fun _ => ⟨e, by simp, hv⟩, fun _ => ⟨_, rfl⟩⟩, ?_⟩ (.inl (by simp [hv]))
      rintro acl' ⟨⟩
      exact ⟨0, e, by simp, hv, by simp⟩
    | true =>
      simp [hv]

/-- A page that had two entries keeps the second one, and a list with room at its end is
    taken for a full one. -/
theorem stale_entry_survives :
    aclAccess (sampleCap 1 5) (aclInit sampleAcl sampleAcl.length) aclW = .ok () ∧
      aclAdd [.ofCap (sampleCap 2 7), .zero] (.ofCap (sampleCap 1 5)) = .error .aclSize :=
  ⟨rfl, rfl⟩

end Exokernel
