import Exokernel.Kern.Capability

/-!
# Extensible access lists — `kern/capability.c`

The access list of a page has room for two entries. `acl_setsize` makes room for more: it
moves the last entry into a list on the heap and turns the slot into a pointer to that list.
`acl_read` shows the two lists as one, and `acl_mod` replaces an entry by its position.

**The pointer slot keeps bits of the entry that was there.** Only its length and address are
stored; `c_perm`, `c_len` and the first byte of the name stay what they were. And the three
functions count positions differently: `acl_read` leaves the pointer slot out, `acl_getpos`
counts it.

Lists are not empty, as `acl[acl_len-1]` is looked at before anything else.
-/
set_option autoImplicit false

namespace Exokernel

/-! ## 1. The pointer slot -/

/-- `le->c_valid && le->c_isptr`. -/
def AclEntry.isPtr (e : AclEntry) : Bool := e.cap.valid && e.cap.isptr

/-- `cl_list[0 .. cl_len)`. -/
def AclEntry.list : AclEntry → List AclEntry
  | mk _ l => l

/-- What the last slot points to, if it is a pointer. -/
def aclExt (acl : List AclEntry) : Option (List AclEntry) :=
  match acl.getLast? with
  | some e => if e.isPtr then some e.list else none
  | none => none

/-- The bytes of a name when `cl_len` and `cl_list` are stored over it: they start at the
    second byte. -/
def overlay (name : Fin 7 → BitVec 8) (len addr : BitVec 32) (i : Fin 7) : BitVec 8 :=
  if i.val = 0 then name i
  else if i.val < 3 then len.extractLsb' (8 * (i.val - 1)) 8
  else addr.extractLsb' (8 * (i.val - 3)) 8

/-- The slot as a pointer to a list at `addr`. -/
def AclEntry.pointTo (e : AclEntry) (l : List AclEntry) (addr : BitVec 32) : AclEntry :=
  mk { e.cap with
    valid := true
    isptr := true
    name := overlay e.cap.name (BitVec.ofNat 32 l.length) addr } l

/-- An entry that is all zero. -/
def AclEntry.zero : AclEntry := .ofCap Cap.null

/-! ## 2. `acl_read` -/

/-- `acl_read`, the entries that are copied out. -/
def aclRead (acl : List AclEntry) (resLen : Nat) : List AclEntry :=
  match aclExt acl with
  | none => acl.take resLen
  | some l =>
    let n1 := min resLen (acl.length - 1)
    if resLen ≤ n1 then acl.take n1
    else acl.take n1 ++ l.take (min (resLen - n1) l.length)

/-! ## 3. `acl_setsize` -/

/-- `NBPG / sizeof (cap)`. -/
abbrev eaclMax : Nat := 512

/-- The list on the heap: a copy of the one that is there, or the last entry, and then
    zeros. -/
def eaclMake (acl : List AclEntry) (n : Nat) : List AclEntry :=
  let old := match aclExt acl with
    | some l => l.take n
    | none => acl.getLast?.toList
  old ++ List.replicate (n - old.length) .zero

/-- `acl_setsize`; `mem` is the address that `malloc` returns. -/
def aclSetsize (acl : List AclEntry) (size : Nat) (mem : Option (BitVec 32)) :
    Except Errno (List AclEntry) :=
  if size ≤ acl.length then
    match aclExt acl with
    | some (e :: _) => .ok (acl.set (acl.length - 1) e)
    | some [] | none => .ok acl
  else if eaclMax < size - acl.length then .error .aclSize
  else
    match mem with
    | none => .error .noMem
    | some addr =>
      let eacl := eaclMake acl (size - acl.length)
      .ok (acl.modify (acl.length - 1) fun le => le.pointTo eacl addr)

/-! ## 4. `acl_mod` -/

/-- The step from a position in the list, counted from the pointer slot on, to one in the list
    below: one less, as an `unsigned`. -/
def posBelow (pos : Nat) : Nat := (pos + (2 ^ 32 - 1)) % 2 ^ 32

mutual

/-- A store of `n` through the pointer that `acl_getpos` returns. Behind the last slot that is
    not a pointer there is no position; a position that belongs to the pointer is looked for
    in its list, at `pos - acl_len`, which wraps around. -/
def aclStore (n : AclEntry) : List AclEntry → Nat → Option (List AclEntry)
  | [], _ => none
  | e :: es, pos =>
    if es.isEmpty && e.isPtr then (AclEntry.storeBelow n e (posBelow pos)).map fun e => [e]
    else if pos = 0 then some (n :: es)
    else (aclStore n es (pos - 1)).map (e :: ·)

def AclEntry.storeBelow (n : AclEntry) : AclEntry → Nat → Option AclEntry
  | .mk c l, pos => (aclStore n l pos).map (.mk c)

end

/-- What `acl_mod` stores: the capability, or zeros if there is none or it is not valid. -/
def modEntry (n : Option Cap) : AclEntry :=
  match n with
  | some n => if n.valid then .ofCap n else .zero
  | none => .zero

/-- The tests of `acl_mod` on the new entry. The first entry must have all permissions; a null
    pointer cannot be looked at. -/
def modCheck (pos : Nat) (n : Option Cap) : Except Errno Unit :=
  match n with
  | none => if pos = 0 then .error .fault else .ok ()
  | some n =>
    if pos = 0 ∧ ¬(n.valid = true ∧ n.perm = aclAll) then .error .aclInvalid
    else if n.valid = true ∧ n.isptr = true then .error .aclInvalid
    else .ok ()

/-- `acl_mod`. -/
def aclModify (c : Cap) (acl : List AclEntry) (pos : Nat) (n : Option Cap) :
    Except Errno (List AclEntry) :=
  match aclAccess c acl aclMod with
  | .error r => .error r
  | .ok () =>
    match aclStore (modEntry n) acl pos with
    | none => .error .capInvalid
    | some acl' => (modCheck pos n).map fun _ => acl'

end Exokernel
