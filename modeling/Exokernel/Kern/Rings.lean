import Exokernel.Kern.Umem

/-!
# Packet rings and message rings — `kern/pktring.c`, `kern/msgring.c`

A user lays out a ring of `struct pktringent` (or `struct msgringent`) in its memory and hands the
kernel its first entry. The kernel makes a ring of its own that names, for each entry, the physical
pages of the buffers and of the *owner word* that says whose turn it is, and keeps these pages
pinned. A packet goes into the first entry of a ring, and the ring is turned by one.

**The two files are one program written twice.** They differ in how a half-made entry is freed,
in which buffers of an entry count and how many there may be; `RingKind` says which file is meant.
Packet rings are named by an index into an array, message rings by their environment.

Entries come from `malloc`. Where it puts them is up to it, so the addresses it will give are an
argument of the calls that allocate; it never gives out a block that is in use. A call has no
result where the kernel stops or follows a pointer to a block that has been freed.
-/
set_option autoImplicit false

namespace Exokernel

/-! ## 1. Entries -/

/-- `MAX_PKTRING_COUNT`. The arrays have one element more. -/
def maxPktringCount : Nat := 127

/-- `AE_RECV_MAXSCATTER`. -/
def aeRecvMaxscatter : Nat := 8

/-- `IPC_MAX_SCATTER_PTR` and `IPC_MAX_MSG_SIZE`. -/
def ipcMaxScatterPtr : Nat := 2
def ipcMaxMsgSize : Nat := 64

/-- An entry as the user has laid it out. `r i` are `sz` and `data` of its `i`-th buffer. -/
structure UserEnt where
  next : BitVec 32
  owner : BitVec 32
  n : BitVec 32
  r : Nat → BitVec 32 × BitVec 32

/-- `sizeof (pktringent)`. -/
def sizeofEnt : BitVec 32 := 80

/-- `trup`. -/
def trup (va : BitVec 32) : BitVec 32 := if ulim < va then ulim else va

/-- `copyin` finds what it reads. -/
def copyinOk (k : Kernel) (cur : Fin nenv) (va sz : BitVec 32) : Bool :=
  varange (isvaMasked pgP k cur) (trup va) sz

/-- The copy of an entry on the kernel's stack. A buffer past the eighth is read from what lies
    behind the copy, `junk`. -/
def ldEnt (ram : Ram) (k : Kernel) (cur : Fin nenv) (junk : Nat → BitVec 32 × BitVec 32)
    (va : BitVec 32) : UserEnt :=
  let va := trup va
  { next := ldw ram k cur va
    owner := ldw ram k cur (va + 4)
    n := ldw ram k cur (va + 12)
    r := fun i =>
      if i < aeRecvMaxscatter then
        (ldw ram k cur (va + 16 + BitVec.ofNat 32 (8 * i)),
          ldw ram k cur (va + 20 + BitVec.ofNat 32 (8 * i)))
      else junk i }

/-- `struct pktringent` and `struct msgringent` in the kernel. `owner` and the second component of
    a buffer are physical addresses. -/
structure Ringent where
  next : Nat
  owner : Option (BitVec 32)
  appaddr : BitVec 32
  body : List (Nat × BitVec 32)

/-- The pages of the buffers, and all pages an entry keeps pinned. -/
def Ringent.dataPages (e : Ringent) : List Nat := e.body.map fun r => pgno r.2
def Ringent.pages (e : Ringent) : List Nat := e.dataPages ++ e.owner.toList.map pgno

/-- The kernel and its rings. `wild` is set when an index past the end of `rings` and `ringused`
    is used. -/
structure Rings where
  kern : Kernel
  live : Nat → Bool
  ents : Nat → Ringent
  rings : Nat → Option Nat
  ringused : Nat → Bool
  notifyWhenEmpty : Nat → Bool
  msgring : Fin nenv → Option Nat
  wild : Bool

namespace Rings

def setMem (s : Rings) (m : Mem) : Rings := { s with kern := s.kern.setMem m }

/-- Rewrite an entry. -/
def modEnt (s : Rings) (a : Nat) (f : Ringent → Ringent) : Rings :=
  { s with ents := Function.update s.ents a (f (s.ents a)) }

def setNext (s : Rings) (a b : Nat) : Rings := s.modEnt a ({ · with next := b })

/-- `malloc` and `free`. -/
def give (s : Rings) (a : Nat) : Rings := { s with live := Function.update s.live a true }
def drop (s : Rings) (a : Nat) : Rings := { s with live := Function.update s.live a false }

/-- Follow a pointer. -/
def ent? (s : Rings) (a : Nat) : Option Ringent := if s.live a then some (s.ents a) else none

def setRing (s : Rings) (i : Nat) (ring : Option Nat) : Rings :=
  { s with rings := Function.update s.rings i ring }

def setUsed (s : Rings) (i : Nat) (b : Bool) : Rings :=
  { s with ringused := Function.update s.ringused i b }

/-- An index into the arrays. -/
def index (s : Rings) (i : Nat) : Rings :=
  { s with wild := s.wild || decide (maxPktringCount < i) }

end Rings

/-- `pktring_init`. -/
def pktringInit (k : Kernel) : Rings where
  kern := k
  live := fun _ => false
  ents := fun _ => ⟨0, none, 0, []⟩
  rings := fun _ => none
  ringused := fun _ => false
  notifyWhenEmpty := fun _ => false
  msgring := fun _ => none
  wild := false

/-- Which of the two files. -/
inductive RingKind where
  | pkt | msg
deriving DecidableEq

/-! ## 2. `pktringent_free`, `pktringent_setup` and their twins -/

/-- `pktringent_free` and `msgringent_free`. Only the second one expects that there may be no
    owner word; the first one asks for the page of address 0, which stops the kernel. -/
def ringentFree (kind : RingKind) (s : Rings) (a : Nat) : Option Rings :=
  let e := s.ents a
  let s := s.setMem (e.dataPages.foldl ppageUnpin s.kern.mem)
  match e.owner, kind with
  | some o, _ => some ((s.setMem (ppageUnpin s.kern.mem (pgno o))).drop a)
  | none, .pkt => none
  | none, .msg => some (s.drop a)

/-- `pa2kva`, which stops the kernel if there is no such page. -/
def pa2kva (k : Kernel) (pa : BitVec 32) : Option (BitVec 32) :=
  if pgno pa < k.mem.nppage then some pa else none

/-- A buffer cut where pages end: addresses and lengths. -/
def cutPages : Nat → BitVec 32 → Nat → List (BitVec 32 × Nat)
  | 0, _, _ => []
  | n + 1, addr, len =>
    if len = 0 then []
    else
      let slen := min len (4096 - addr.toNat % 4096)
      (addr, slen) :: cutPages n (addr + BitVec.ofNat 32 slen) (len - slen)

/-- The pieces of a buffer. Its length is taken for an `int`. -/
def bufPieces (r : BitVec 32 × BitVec 32) : List (BitVec 32 × Nat) :=
  if r.1.msb then [] else cutPages (r.1.toNat / 4096 + 2) r.2 r.1.toNat

/-- The pieces of an entry's buffers: of all of them, or of the first. -/
def entPieces (u : UserEnt) : RingKind → List (BitVec 32 × Nat)
  | .pkt => (List.range u.n.toNat).flatMap fun i => bufPieces (u.r i)
  | .msg => bufPieces (u.r 0)

/-- There are too many pieces, or too many bytes. -/
def tooBig (scatptr totalLen : Nat) : RingKind → Bool
  | .pkt => decide (aeRecvMaxscatter ≤ scatptr)
  | .msg => decide (ipcMaxScatterPtr < scatptr) || decide (ipcMaxMsgSize < totalLen)

/-- The loop of `pktringent_setup` and `msgringent_setup` over the pieces. **The buffers are checked
    for reading**, and the directory's flags are not looked at. -/
def setupBody (kind : RingKind) (cur : Fin nenv) (a : Nat) :
    List (BitVec 32 × Nat) → Nat → Rings → Option (Bool × Rings)
  | [], _, s => some (true, s)
  | (addr, slen) :: ps, totalLen, s =>
    if !isvaMasked readMask s.kern cur addr then (ringentFree kind s a).map (false, ·)
    else
      (pa2kva s.kern (envVa2pa s.kern cur addr)).bind fun pa =>
        let s := s.modEnt a fun e => { e with body := e.body ++ [(slen, pa)] }
        let s := s.setMem (ppagePin s.kern.mem (pgno pa))
        if tooBig (s.ents a).body.length (totalLen + slen) kind then
          (ringentFree kind s a).map (false, ·)
        else setupBody kind cur a ps (totalLen + slen) s

/-- `pktringent_setup` and `msgringent_setup`. `frame` is where the copy of the user's entry lies
    on the stack, `a` where `malloc` puts the new entry. -/
def ringentSetup (kind : RingKind) (s : Rings) (cur : Fin nenv) (u : UserEnt) (frame : BitVec 32)
    (a : Nat) : Option (Option Nat × Rings) :=
  match kmalloc s.kern.mem with
  | (false, m) => some (none, s.setMem m)
  | (true, m) =>
    if s.live a then none
    else
      let s := ((s.setMem m).give a).modEnt a fun e => ⟨e.next, none, frame, []⟩
      if u.owner.umod 4 ≠ 0 ∨ !isvaMasked writeMask s.kern cur u.owner then
        (ringentFree kind s a).map (none, ·)
      else
        (pa2kva s.kern (envVa2pa s.kern cur u.owner)).bind fun pa =>
          let s := s.modEnt a ({ · with owner := some pa })
          let s := s.setMem (ppagePin s.kern.mem (pgno pa))
          if kind = .msg ∧ 1 < u.n then (ringentFree kind s a).map (none, ·)
          else
            (setupBody kind cur a (entPieces u kind) 0 s).map fun (ok, s) =>
              (if ok then some a else none, s)

/-! ## 3. Whole rings -/

/-- `pktring_free` and `msgring_free`: the entry behind the first goes, until there is none. -/
def ringFree (kind : RingKind) : Nat → Rings → Option Nat → Option Rings
  | _, s, none => some s
  | 0, _, some _ => none
  | n + 1, s, some head =>
    (s.ent? head).bind fun e =>
      let ktmp := e.next
      (s.ent? ktmp).bind fun t =>
        let s := s.setNext head t.next
        (ringentFree kind s ktmp).bind fun s =>
          ringFree kind n s (if ktmp = t.next then none else some head)

/-- How the loop over a user's ring ends. -/
inductive SetRes where
  | done | failed | faulted
deriving DecidableEq

/-- Link a new entry in: behind the last one, or to itself. The first component is the ring's first
    entry. -/
def linkNew (s : Rings) (ktmp : Nat) : Option (Nat × Nat) → Nat × Rings
  | some (ring, kprev) => (ring, (s.setNext ktmp (s.ents kprev).next).setNext kprev ktmp)
  | none => (ktmp, s.setNext ktmp ktmp)

/-- The loop of `sys_pktring_setring` and `sys_msgring_setring`, from the user's entry `utmp` on.
    `made` are the first entry made so far and the last; `addrs` are the blocks that
    `malloc` will give. -/
def setringLoop (kind : RingKind) (cur : Fin nenv) (ram : Ram)
    (junk : Nat → BitVec 32 × BitVec 32) (frame head : BitVec 32) :
    List Nat → BitVec 32 → Option (Nat × Nat) → Rings → Option (SetRes × Option Nat × Rings)
  | [], _, _, _ => none
  | a :: addrs, utmp, made, s =>
    if utmp = 0 then some (.failed, made.map Prod.fst, s)
    else if !copyinOk s.kern cur utmp sizeofEnt then some (.faulted, made.map Prod.fst, s)
    else
      let u := ldEnt ram s.kern cur junk utmp
      (ringentSetup kind s cur u frame a).bind fun (ktmp, s) =>
        match ktmp with
        | none => some (.failed, made.map Prod.fst, s)
        | some ktmp =>
          let linked := linkNew s ktmp made
          if u.next = head then some (.done, some linked.1, linked.2)
          else setringLoop kind cur ram junk frame head addrs u.next (some (linked.1, ktmp)) linked.2

/-- The first free id: `for (i = 1; i <= MAX_PKTRING_COUNT; i++)`. -/
def freeRingid (s : Rings) : Option Nat :=
  (List.range' 1 maxPktringCount).find? fun i => !s.ringused i

/-- `sys_pktring_setring` once the id is known. After a failure the ring is freed, and **the array
    still points at it**. -/
def pktringSet (fuel : Nat) (s : Rings) (cur : Fin nenv) (id : Nat) (head : BitVec 32) (ram : Ram)
    (junk : Nat → BitVec 32 × BitVec 32) (frame : BitVec 32) (addrs : List Nat) :
    Option (Except Ret Nat × Rings) :=
  (ringFree .pkt fuel s (s.rings id)).bind fun s =>
    (setringLoop .pkt cur ram junk frame head addrs head none (s.setRing id none)).bind
      fun (res, ring, s) =>
        let s := s.setRing id ring
        match res with
        | .done =>
          some (.ok id, { s with
            notifyWhenEmpty :=
              if 1 < id then Function.update s.notifyWhenEmpty id true else s.notifyWhenEmpty })
        | .failed => (ringFree .pkt fuel s ring).map fun s => (.error (.err .fault), s)
        | .faulted => some (.error .fault, s)

/-- `sys_pktring_setring`. An id is only looked for if `ringid` is 0; any other `ringid` is used
    as it is. -/
def sysPktringSetring (fuel : Nat) (s : Rings) (cur : Fin nenv) (ringid head : BitVec 32)
    (ram : Ram) (junk : Nat → BitVec 32 × BitVec 32) (frame : BitVec 32) (addrs : List Nat) :
    Option (Except Ret Nat × Rings) :=
  if ringid = 0 then
    match freeRingid s with
    | none => some (.error (.err .noPktrings), s)
    | some i => pktringSet fuel (s.setUsed i true) cur i head ram junk frame addrs
  else pktringSet fuel (s.index ringid.toNat) cur ringid.toNat head ram junk frame addrs

/-- `sys_msgring_setring`. -/
def sysMsgringSetring (fuel : Nat) (s : Rings) (cur : Fin nenv) (head : BitVec 32) (ram : Ram)
    (junk : Nat → BitVec 32 × BitVec 32) (frame : BitVec 32) (addrs : List Nat) :
    Option (Ret × Rings) :=
  let setMsgring (s : Rings) (ring : Option Nat) : Rings :=
    { s with msgring := Function.update s.msgring cur ring }
  (ringFree .msg fuel s (s.msgring cur)).bind fun s =>
    (setringLoop .msg cur ram junk frame head addrs head none (setMsgring s none)).bind
      fun (res, ring, s) =>
        match res with
        | .done => some (.ok, setMsgring s ring)
        | .failed => (ringFree .msg fuel s ring).map fun s => (.err .fault, setMsgring s none)
        | .faulted => some (.fault, setMsgring s ring)

/-! ## 4. Editing a ring -/

/-- The search of `sys_pktring_modring` for the entry before `oldentry`, from `kprev` on. It ends at
    `head` if there is none. -/
def findPrev (s : Rings) (oldentry : BitVec 32) (head : Nat) : Nat → Nat → Option Nat
  | 0, _ => none
  | n + 1, kprev =>
    (s.ent? kprev).bind fun e =>
      (s.ent? e.next).bind fun t =>
        if t.appaddr = oldentry then some kprev
        else if e.next = head then some head
        else findPrev s oldentry head n e.next

/-- What is done with the entry behind `kprev`: it is replaced by `ktmp`, or `ktmp` is inserted
    behind it, or it is to be deleted. The result is the new first entry. Deleting **assigns where it
    means to compare, and frees the entry behind the one it has unlinked**. -/
def ringEdit (kind : RingKind) (s : Rings) (head kprev : Nat) (ktmp : Option Nat) (replace : Bool) :
    Option (Nat × Rings) :=
  let old := (s.ents kprev).next
  match ktmp, replace with
  | some ktmp, true =>
    let s := s.setNext ktmp (s.ents old).next
    (ringentFree kind s old).map fun s =>
      (if head = old then ktmp else head, s.setNext kprev ktmp)
  | some ktmp, false =>
    let s := s.setNext ktmp (s.ents old).next
    some (head, s.setNext old ktmp)
  | none, true =>
    let s := s.setNext kprev (s.ents old).next
    (ringentFree kind s (s.ents kprev).next).map fun s' => ((s.ents old).next, s')
  | none, false => some (head, s)

/-- `sys_pktring_modring` and `sys_msgring_modring` on the ring that begins at `head`. -/
def ringMod (kind : RingKind) (fuel : Nat) (s : Rings) (cur : Fin nenv) (head : Nat)
    (newentry oldentry : BitVec 32) (replace : Bool) (ram : Ram)
    (junk : Nat → BitVec 32 × BitVec 32) (frame : BitVec 32) (a : Nat) :
    Option (Ret × Nat × Rings) :=
  (findPrev s oldentry head fuel head).bind fun kprev =>
    (s.ent? kprev).bind fun e =>
      (s.ent? e.next).bind fun t =>
        if t.appaddr ≠ oldentry then some (.err .notFound, head, s)
        else if newentry = 0 then
          (ringEdit kind s head kprev none replace).map fun (head, s) => (.ok, head, s)
        else if !copyinOk s.kern cur newentry sizeofEnt then some (.fault, head, s)
        else
          (ringentSetup kind s cur (ldEnt ram s.kern cur junk newentry) frame a).bind
            fun (ktmp, s) =>
              match ktmp, kind with
              | none, .pkt => some (.err .noPktrings, head, s)
              | none, .msg => some (.err .inval, head, s)
              | some ktmp, _ =>
                (ringEdit kind s head kprev (some ktmp) replace).map fun (head, s) =>
                  (.ok, head, s)

/-- `sys_pktring_modring`. -/
def sysPktringModring (fuel : Nat) (s : Rings) (cur : Fin nenv)
    (ringid newentry oldentry : BitVec 32) (replace : Bool) (ram : Ram)
    (junk : Nat → BitVec 32 × BitVec 32) (frame : BitVec 32) (a : Nat) : Option (Ret × Rings) :=
  if maxPktringCount ≤ ringid.toNat then some (.err .inval, s)
  else if oldentry = 0 then some (.err .inval, s)
  else
    match s.rings ringid.toNat with
    | none => some (.err .inval, s)
    | some head =>
      (ringMod .pkt fuel s cur head newentry oldentry replace ram junk frame a).map
        fun (r, head, s) => (r, s.setRing ringid.toNat (some head))

/-- `sys_msgring_modring`. -/
def sysMsgringModring (fuel : Nat) (s : Rings) (cur : Fin nenv) (newentry oldentry : BitVec 32)
    (replace : Bool) (ram : Ram) (junk : Nat → BitVec 32 × BitVec 32) (frame : BitVec 32)
    (a : Nat) : Option (Ret × Rings) :=
  if oldentry = 0 then some (.err .inval, s)
  else
    match s.msgring cur with
    | none => some (.err .noMsgring, s)
    | some head =>
      (ringMod .msg fuel s cur head newentry oldentry replace ram junk frame a).map
        fun (r, head, s) => (r, { s with msgring := Function.update s.msgring cur (some head) })

/-- `sys_pktring_delring`. -/
def sysPktringDelring (fuel : Nat) (s : Rings) (ringid : BitVec 32) : Option (Ret × Rings) :=
  if maxPktringCount ≤ ringid.toNat then some (.err .inval, s)
  else if !s.ringused ringid.toNat then some (.err .notFound, s)
  else
    (ringFree .pkt fuel s (s.rings ringid.toNat)).map fun s =>
      (.ok, (s.setRing ringid.toNat none).setUsed ringid.toNat false)

/-! ## 5. Delivery -/

/-- The word at a physical address. -/
def ldPhys (ram : Ram) (pa : BitVec 32) : BitVec 32 :=
  (ram (pa + 3) ++ ram (pa + 2) ++ ram (pa + 1) ++ ram pa : BitVec (8 + 8 + 8 + 8))

/-- Bytes stored from a physical address on. -/
def stBytes (ram : Ram) : BitVec 32 → List (BitVec 8) → Ram
  | _, [] => ram
  | pa, x :: xs => stBytes (Function.update ram pa x) (pa + 1) xs

/-- The loop of `pktring_handlepkt`: what is left of the packet goes into the next buffer. -/
def fillBuffers (ram : Ram) : List (Nat × BitVec 32) → List (BitVec 8) → Ram
  | [], _ => ram
  | (sz, pa) :: body, pkt =>
    let ram := stBytes ram pa (pkt.take sz)
    if pkt.length ≤ sz then ram else fillBuffers ram body (pkt.drop sz)

/-- The four bytes of a word. -/
def wordBytes (w : BitVec 32) : List (BitVec 8) :=
  [w.extractLsb' 0 8, w.extractLsb' 8 8, w.extractLsb' 16 8, w.extractLsb' 24 8]

/-- `pktring_handlepkt`. A packet is the concatenation of what it was received in. -/
def pktringHandlepkt (s : Rings) (ringid : BitVec 32) (pkt : List (BitVec 8)) (ram : Ram) :
    Option (Rings × Ram) :=
  if maxPktringCount ≤ ringid.toNat then some (s, ram)
  else
    match s.rings ringid.toNat with
    | none => some (s, ram)
    | some ktmp =>
      if pkt.length = 0 then some (s, ram)
      else
        (s.ent? ktmp).bind fun e =>
          e.owner.map fun owner =>
            if ldPhys ram owner ≠ 0 then (s, ram)
            else
              (s.setRing ringid.toNat (some e.next), stBytes (fillBuffers ram e.body pkt) owner
                  (wordBytes (BitVec.ofNat 32 pkt.length)))

end Exokernel
