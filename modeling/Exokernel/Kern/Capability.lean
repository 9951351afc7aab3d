import Mathlib

/-!
# Capabilities — `xok/capability.h` and the checks of `kern/capability.c`

A capability names a subtree of resources: `c_name[0 .. c_len)` is a prefix and
`c_perm` says what may be done below it. `capDominates` is the order of that
hierarchy, and `aclAccess` decides whether a capability opens a resource that
carries an access control list.

**Access lists are lists of entries, not of capabilities.** An entry whose
`c_isptr` bit is set overlays its name bytes with a pointer to a further list,
which `acl_access` follows. `AclEntry` keeps both readings side by side: the raw
capability (whose name bytes the code also compares, pointer or not) and the
list the pointer leads to.
-/
set_option autoImplicit false

namespace Exokernel

/-! ## 1. Error numbers — `xok/kerrno.h` -/

/-- The `-E_*` results the modelled calls return. -/
inductive Errno where
  | unspecified | badEnv | inval | vspace | noMem | share | notFound | exists
  | fault | capInvalid | capInsuff | noFreeEnv | aclSize | xtntSize | xtntRdonly | buffer
  | tooBig | noPktrings | noMsgring | msgringFull | aclInvalid
deriving DecidableEq, Repr

/-! ## 2. Capabilities -/

/-- `struct Capability`: the name is seven bytes, of which `c_len` count. -/
structure Cap where
  perm : BitVec 3
  valid : Bool
  isptr : Bool
  len : BitVec 3
  name : Fin 7 → BitVec 8
deriving DecidableEq

namespace Cap

/-- `cap_null`. -/
def null : Cap := ⟨0, false, false, 0, fun _ => 0⟩

end Cap

/-- Permission bits in access control lists and in environments' lists. -/
def aclAll : BitVec 3 := 7
def aclMod : BitVec 3 := 4
def aclW : BitVec 3 := 1
def aclR : BitVec 3 := 0
def clAll : BitVec 3 := 7
def clDup : BitVec 3 := 4

/-- `!memcmp (a, b, n)` on name bytes. -/
def nameEq (a b : Fin 7 → BitVec 8) (n : Nat) : Bool :=
  decide (∀ i : Fin 7, i.val < n → a i = b i)

/-- `cap_dominates`: both valid, neither a pointer, shorter-or-equal prefix and
    no permission that the dominating capability lacks. -/
def capDominates (c1 c2 : Cap) : Bool :=
  if !c1.valid || c1.isptr || !c2.valid || c2.isptr || decide (c2.len < c1.len)
      || decide (c2.perm &&& c1.perm ≠ c2.perm) then
    false
  else
    nameEq c1.name c2.name c1.len.toNat

/-! ## 3. Access control lists -/

/-- An entry of an access control list. `list` is what `cl_list[0 .. cl_len)`
    holds when the entry is a pointer; nothing reads it otherwise. -/
inductive AclEntry where
  | mk (cap : Cap) (list : List AclEntry)

namespace AclEntry

/-- The capability stored in an entry (its raw bytes, for a pointer). -/
def cap : AclEntry → Cap
  | mk c _ => c

/-- Storing a capability that is not a pointer. -/
def ofCap (c : Cap) : AclEntry := mk c []

/-- `acl->c_valid = 0`. -/
def invalidate : AclEntry → AclEntry
  | mk c l => mk { c with valid := false } l

@[simp] theorem cap_ofCap (c : Cap) : (ofCap c).cap = c := rfl

@[simp] theorem invalidate_valid (e : AclEntry) : e.invalidate.cap.valid = false := by
  cases e; rfl

end AclEntry

/-- The test `acl_access` makes on the bytes of one valid entry. -/
def entryMatches (c : Cap) (perm : BitVec 3) (e : Cap) : Bool :=
  decide (perm &&& e.perm = perm) && decide (c.len ≤ e.len) && nameEq c.name e.name c.len.toNat

mutual

/-- The body of `acl_access`'s loop. The recursive call repeats the tests on
    `c` itself, which the caller has made already. -/
def AclEntry.grants (c : Cap) (perm : BitVec 3) : AclEntry → Bool
  | .mk e l => e.valid && ((e.isptr && listGrants c perm l) || entryMatches c perm e)

def listGrants (c : Cap) (perm : BitVec 3) : List AclEntry → Bool
  | [] => false
  | e :: es => e.grants c perm || listGrants c perm es

end

/-- `acl_access`. -/
def aclAccess (c : Cap) (acl : List AclEntry) (perm : BitVec 3) : Except Errno Unit :=
  if c.valid = false then .error .capInvalid
  else if perm &&& c.perm ≠ perm then .error .capInsuff
  else if listGrants c perm acl then .ok ()
  else .error .capInsuff

/-- `acl_init`. The loop never advances `acl`, so all `len` rounds clear the
    valid bit of entry 0. -/
def aclInit (acl : List AclEntry) : Nat → List AclEntry
  | 0 => acl
  | n + 1 => aclInit (acl.modifyHead AclEntry.invalidate) n

/-- The rounds of `acl_add` from index `i` on. The test reads entry 0 in every
    round (`acl->c_valid`, not `acl[i].c_valid`). -/
def aclAddLoop (acl : List AclEntry) (newEntry : AclEntry) (i : Nat) :
    Nat → Except Errno (List AclEntry)
  | 0 => .error .aclSize
  | n + 1 =>
    match acl.head? with
    | none => .error .aclSize
    | some e =>
      if e.cap.valid = false then .ok (acl.set i newEntry)
      else aclAddLoop acl newEntry (i + 1) n

/-- `acl_add`. -/
def aclAdd (acl : List AclEntry) (newEntry : AclEntry) : Except Errno (List AclEntry) :=
  aclAddLoop acl newEntry 0 acl.length

/-! ### What the two loops come to

Both loops are stuck on entry 0. -/

theorem aclInit_cons (e : AclEntry) (es : List AclEntry) (n : Nat) :
    aclInit (e :: es) (n + 1) = e.invalidate :: es := by
  have stuck : ∀ n, aclInit (e.invalidate :: es) n = e.invalidate :: es := by
    intro n
    induction n with
    | zero => rfl
    | succ n ih => cases e; simpa [aclInit, AclEntry.invalidate] using ih
  simpa [aclInit] using stuck n

theorem aclAddLoop_valid {e : AclEntry} (he : e.cap.valid = true) (es : List AclEntry)
    (x : AclEntry) (n i : Nat) : aclAddLoop (e :: es) x i n = .error .aclSize := by
  induction n generalizing i with
  | zero => rfl
  | succ n ih => simp [aclAddLoop, he, ih]

/-- `acl_add` stores the entry at index 0 if that one is invalid and reports a
    full list otherwise, whatever the other entries are. -/
theorem aclAdd_cons (e x : AclEntry) (es : List AclEntry) :
    aclAdd (e :: es) x = if e.cap.valid = false then .ok (x :: es) else .error .aclSize := by
  cases he : e.cap.valid with
  | false => simp [aclAdd, aclAddLoop, he]
  | true => simpa [aclAdd] using aclAddLoop_valid he es x (es.length + 1) 0

theorem aclAdd_nil (x : AclEntry) : aclAdd [] x = .error .aclSize := rfl

end Exokernel
