import Exokernel.Kern.Bc
import Exokernel.Kern.Umem

/-!
# Disk requests — `kern/disk.c`, and the write side of `kern/bc.c`

A transfer takes time, and its pages must not be given away meanwhile. A request therefore pins
its pages when it is submitted and unpins them when it completes. **There are two kinds of
request.** One made by the buffer cache names kernel pages. A raw one (`sys_disk_request`,
`sys_disk_mbr`, a SCSI command) names addresses of the environment that made it, and those are
looked up in its page tables twice: when the pages are pinned and when they are unpinned.

What the driver holds is a list of `struct buf`. With each stands the list of pages that the
driver found behind the addresses when it was given the request: these are the pages the bytes
go to. User memory is read as the call finds it, so it is an argument of the calls that read it.
A call has no result where the kernel stops, or follows a pointer that leads nowhere.
-/
set_option autoImplicit false

namespace Exokernel

/-! ## 1. Requests -/

/-- `b_flags`. -/
def bRead : BitVec 32 := 1
def bScatgath : BitVec 32 := 0x10
def bScsicmd : BitVec 32 := 0x20

/-- `DISK_MAX_SCATTER`. -/
def diskMaxScatter : Nat := 257

/-- Where the bytes of a request lie: in a page of the cache, or at an address of the
    environment that made it. A segment of `sys_disk_request` may also carry `B_SCSICMD`; its
    address is then taken for that of a command when it completes. -/
inductive BufData where
  | page (p : Nat)
  | user (data datalen : BitVec 32)
  | cmd (addr : BitVec 32)
deriving DecidableEq

/-- `struct buf` in the kernel. `resptr` is named by its page. -/
structure Buf where
  read : Bool
  dev : BitVec 32
  blkno : BitVec 64
  data : BufData
  envid : BitVec 32
  res : Option Nat
deriving DecidableEq

/-- A request with the driver, and the pages it transfers to or from. -/
structure Xfer where
  buf : Buf
  pages : List Nat
deriving DecidableEq

/-- The kernel with its disks. `ndevs` also counts disks that are off line. -/
structure Io where
  kern : Kernel
  ndevs : Nat
  pending : List Xfer
  shouldReschedule : BitVec 32

namespace Io

def setMem (s : Io) (m : Mem) : Io := { s with kern := s.kern.setMem m }

def setKern (s : Io) (k : Kernel) : Io := { s with kern := k }

/-- `d_strategy`. -/
def strategy (s : Io) (xs : List Xfer) : Io := { s with pending := s.pending ++ xs }

end Io

/-! ## 2. Writing from the cache -/

/-- `BC_GOING_OUT`. -/
def bcGoingOut : BitVec 32 := 4

/-- `bc_lookup`. -/
def bcLookup (m : Mem) (dev blk : BitVec 32) : Option Nat := bcLookup64 m dev (blk.setWidth 64)

/-- `buf_state_save[i]` and `buf_dirty_save[i]`. -/
structure BufSave where
  state : BitVec 32
  dirty : Bool

/-- What the loop of `bc_write_extent64` leaves: how it ended, what it saved of the blocks it is
    done with, and the chain. -/
structure WriteLoop where
  result : Except Errno Unit
  saved : List BufSave
  chain : List DiskBuf
  k : Kernel

/-- The loop of `bc_write_extent64`, `left` blocks from `block + i` on. The blocks are looked up by
    the low halves of their numbers. -/
def bcWriteLoop (dev : BitVec 32) (block : BitVec 64) (res : Option Nat) :
    Nat → Nat → List BufSave → List DiskBuf → Kernel → WriteLoop
  | 0, _, saved, chain, k => ⟨.ok (), saved, chain, k⟩
  | left + 1, i, saved, chain, k =>
    let blk := block + BitVec.ofNat 64 i
    match bcLookup k.mem dev (blk.setWidth 32) with
    | none => ⟨.error .inval, saved, chain, k⟩
    | some b =>
      let e := k.mem.bufs b
      if e.state &&& bcValid = 0 ∨ e.state &&& bcComingIn ≠ 0 then
        ⟨.error .inval, saved, chain, k⟩
      else
        let k := k.setMem (k.mem.modBuf b fun e =>
          { e with writecnt := e.writecnt + 1, state := e.state ||| bcGoingOut })
        match diskPrepareBcRequest k dev blk e.ppn (if left = 0 then res else none) chain with
        | (.error r, k) =>
          ⟨.error r, saved, chain, k.setMem (k.mem.modBuf b fun b =>
            { b with writecnt := b.writecnt - 1, state := e.state })⟩
        | (.ok chain, k) =>
          bcWriteLoop dev block res left (i + 1) (saved ++ [⟨e.state, e.dirty⟩]) chain
            (k.setMem (bcSetClean k.mem b))

/-- The clean-up of `bc_write_extent64`, from block `block + j` on. -/
def bcWriteCleanup (dev : BitVec 32) (block : BitVec 64) : List BufSave → Nat → Mem → Mem
  | [], _, m => m
  | old :: saved, j, m =>
    match bcLookup64 m dev (block + BitVec.ofNat 64 j) with
    | none => { m with panicked := true }
    | some b =>
      let m := m.assert ((m.bufs b).ppn ≠ 0)
      let m := m.modBuf b fun e => { e with writecnt := e.writecnt - 1, state := old.state }
      let m :=
        if old.dirty ≠ (m.bufs b).dirty then
          if old.dirty then bcSetDirty m b else bcSetClean m b
        else m
      bcWriteCleanup dev block saved (j + 1) m

/-- `bc_write_extent64`. The chain that goes to the driver is the second result. The two arrays
    are taken to fit a block of `malloc`'s. -/
def bcWriteExtent64 (k : Kernel) (dev : BitVec 32) (block : BitVec 64) (num : Nat)
    (res : Option Nat) : Ret × List DiskBuf × Kernel :=
  match kmalloc k.mem with
  | (false, m) => (.err .noMem, [], k.setMem m)
  | (true, m) =>
    match kmalloc m with
    | (false, m) => (.err .noMem, [], k.setMem m)
    | (true, m) =>
      let r := bcWriteLoop dev block res num 0 [] [] (k.setMem m)
      let cleanup (e : Errno) : Ret × List DiskBuf × Kernel :=
        (.err e, [],
          r.k.setMem (bcWriteCleanup dev block r.saved 0 (diskBufFreeChain r.k.mem r.chain)))
      match r.result with
      | .error e => cleanup e
      | .ok () =>
        match r.chain with
        | [] => (.ok, [], r.k)
        | _ :: _ =>
          match diskBcRequest r.chain with
          | .error e => cleanup e
          | .ok () => (.ok, r.chain, r.k)

/-- The requests of a chain, once the driver has them. -/
def DiskBuf.xfer (read : Bool) (dev envid : BitVec 32) (bp : DiskBuf) : Xfer :=
  ⟨⟨read, dev, bp.blkno, .page bp.page, envid, bp.res⟩, [bp.page]⟩

/-- `bc_write_extent64`, with the driver. -/
def Io.writeExtent (s : Io) (cur : Fin nenv) (dev : BitVec 32) (block : BitVec 64) (num : BitVec 32)
    (res : Option Nat) : Ret × Io :=
  let (r, chain, k) := bcWriteExtent64 s.kern dev block num.toNat res
  (r, (s.setKern k).strategy (chain.map (DiskBuf.xfer false dev (s.kern.envs cur).id)))

/-- `sys_bc_write_dirty_bufs64`. -/
def sysBcWriteDirtyBufs64 (s : Io) (cur : Fin nenv) (dev : BitVec 32) (block : BitVec 64)
    (num resptr : BitVec 32) : Ret × Io :=
  match resPage s.kern cur resptr with
  | .error r => (.err r, s)
  | .ok res => s.writeExtent cur dev block num res

/-- The chain of a read that `bc_read_extent64` has handed to the driver. -/
def bcReadChain (k : Kernel) (dev : BitVec 32) (block : BitVec 64) (num : Nat)
    (res : Option Nat) (userreq : Bool) : List DiskBuf :=
  let r := bcReadLoop dev block res userreq num 0 [] k
  match r.result, diskBcRequest r.chain with
  | .ok (), .ok () => r.chain
  | _, _ => []

/-- `bc_read_extent64`, with the driver. -/
def Io.readExtent (s : Io) (cur : Fin nenv) (dev : BitVec 32) (block : BitVec 64) (num : BitVec 32)
    (res : Option Nat) (userreq : Bool) : Ret × Io :=
  let (r, k) := bcReadExtent64 s.kern dev block num.toNat res userreq
  let chain := bcReadChain s.kern dev block num.toNat res userreq
  (r, (s.setKern k).strategy (chain.map (DiskBuf.xfer true dev (s.kern.envs cur).id)))

/-- The chain of `sys_bc_read_and_insert`, which refuses a call before it reads anything. -/
def readAndInsertChain (k : Kernel) (cur : Fin nenv) (dev : BitVec 32) (b : BitVec 64)
    (pagecount resptr : BitVec 32) : List DiskBuf :=
  if pagecount = 0 ∨ 16 < pagecount ∨ k.ndisks ≤ dev.toNat ∨
      (List.range pagecount.toNat).any fun i =>
        (bcLookup64 k.mem dev (b + BitVec.ofNat 64 i)).isSome then []
  else
    match resPage k cur resptr with
    | .error _ => []
    | .ok res => bcReadChain k dev b pagecount.toNat res true

section

variable {k k' : Kernel} {dev : BitVec 32} {block : BitVec 64} {num : Nat} {res : Option Nat}
  {r : Ret}

/-- How `bc_read_extent64` ends: it takes everything back, or hands over the loop's chain. -/
theorem bcReadExtent64_cases {userreq : Bool} {chain : List DiskBuf}
    (hc : bcReadChain k dev block num res userreq = chain)
    (heq : bcReadExtent64 k dev block num res userreq = (r, k')) :
    let l := bcReadLoop dev block res userreq num 0 [] k
    (chain = [] ∧
      k' = l.k.setMem (bcReadCleanup dev block l.done 0 (diskBufFreeChain l.k.mem l.chain))) ∨
    (r = .ok ∧ chain = l.chain ∧ k' = l.k) := by
  unfold bcReadExtent64 at heq
  unfold bcReadChain at hc
  generalize bcReadLoop dev block res userreq num 0 [] k = l at hc heq
  dsimp only at hc heq ⊢
  split at heq
  · rename_i hl
    rw [hl] at hc
    cases heq
    exact .inl ⟨hc.symm, rfl⟩
  rename_i hl
  split at heq
  · rename_i hreq
    rw [hl, hreq] at hc
    cases heq
    exact .inl ⟨hc.symm, rfl⟩
  · rename_i hreq
    rw [hl, hreq] at hc
    cases heq
    exact .inr ⟨rfl, hc.symm, rfl⟩

/-- How `bc_write_extent64` ends: without memory for its arrays, or with everything taken back,
    or it hands over the loop's chain. -/
theorem bcWriteExtent64_cases {chain : List DiskBuf}
    (heq : bcWriteExtent64 k dev block num res = (r, chain, k')) :
    (chain = [] ∧ ∃ m, kmalloc k.mem = (false, m) ∧ k' = k.setMem m) ∨
    ∃ m₁ ok m, kmalloc k.mem = (true, m₁) ∧ kmalloc m₁ = (ok, m) ∧
      let l := bcWriteLoop dev block res num 0 [] [] (k.setMem m)
      (chain = [] ∧ (k' = k.setMem m ∨
        k' = l.k.setMem (bcWriteCleanup dev block l.saved 0 (diskBufFreeChain l.k.mem l.chain)))) ∨
      (r = .ok ∧ chain = l.chain ∧ k' = l.k) := by
  unfold bcWriteExtent64 at heq
  split at heq
  · rename_i m hm
    cases heq
    exact .inl ⟨rfl, m, hm, rfl⟩
  rename_i m₁ hm₁
  right
  split at heq
  · rename_i m hm
    cases heq
    exact ⟨m₁, false, m, hm₁, hm, .inl ⟨rfl, .inl rfl⟩⟩
  rename_i m hm
  refine ⟨m₁, true, m, hm₁, hm, ?_⟩
  generalize bcWriteLoop dev block res num 0 [] [] (k.setMem m) = l at heq
  dsimp only at heq ⊢
  split at heq
  · cases heq
    exact .inl ⟨rfl, .inr rfl⟩
  split at heq
  · rename_i hl
    cases heq
    exact .inr ⟨rfl, hl.symm, rfl⟩
  split at heq
  · cases heq
    exact .inl ⟨rfl, .inr rfl⟩
  · cases heq
    exact .inr ⟨rfl, rfl, rfl⟩

end

/-- `bc_diskreq_done64`, for a request on page `p`. -/
def bcDiskreqDone64 (s : Io) (p : Nat) (write : Bool) (envid : BitVec 32) : Io :=
  let m := s.kern.mem
  match (m.pages p).buf with
  | none => s
  | some b =>
    let e := m.bufs b
    if e.state &&& (bcComingIn ||| bcGoingOut) = 0 then s
    else if !write then
      if e.state &&& bcComingIn = 0 then s
      else
        { s.setMem (m.modBuf b ({ · with state := e.state &&& ~~~bcComingIn })) with
          shouldReschedule :=
            if envid ≠ 0 ∧ s.shouldReschedule = 0 then envid else s.shouldReschedule }
    else if e.state &&& bcGoingOut = 0 ∧ e.writecnt = 0 then s
    else
      s.setMem (m.modBuf b ({ · with
        writecnt := e.writecnt - 1
        state := if e.writecnt - 1 = 0 then e.state &&& ~~~bcGoingOut else e.state }))

/-! ## 3. Raw requests -/

/-- Pin the pages behind the addresses. Nothing checks the entries again. -/
def pinAddrs (k : Kernel) (cur : Fin nenv) : List (BitVec 32) → Option (List Nat × Kernel)
  | [] => some ([], k)
  | va :: vas =>
    (envVa2ptep k cur va).bind fun pte =>
      (pinAddrs (k.setMem (ppagePin k.mem (pgno pte))) cur vas).map fun (ps, k) =>
        (pgno pte :: ps, k)

/-- How many runs of consecutive pages there are, given the page before. -/
def countNoncontigs : Nat → List Nat → Nat
  | _, [] => 0
  | prev, p :: ps => (if p = prev + 1 then 0 else 1) + countNoncontigs p ps

/-- `pin_and_count_noncontigs`. -/
def pinAndCountNoncontigs (k : Kernel) (cur : Fin nenv) (addr datalen : BitVec 32) :
    Option (Nat × List Nat × Kernel) :=
  (pinAddrs k cur (dataAddrs addr datalen)).map fun (ps, k) =>
    (countNoncontigs k.mem.nppage ps, ps, k)

/-- Unpin what is behind the addresses now. -/
def unpinAddrs (k : Kernel) (i : Fin nenv) : List (BitVec 32) → Option Kernel
  | [] => some k
  | va :: vas =>
    (envVa2ptep k i va).bind fun pte => unpinAddrs (k.setMem (ppageUnpin k.mem (pgno pte))) i vas

/-- `disk_buf_free`. The kernel asserts that the environment is still there and that the data do
    not end before they begin. A user's address that it takes for a command's leads nowhere. -/
def bufFree (k : Kernel) (bp : Buf) : Option Kernel :=
  let freed :=
    match bp.data with
    | .page p => some (k.setMem (ppageUnpin k.mem p))
    | .user data datalen =>
      if datalen = 0 then some k
      else if 2 ^ 32 < data.toNat + datalen.toNat then none
      else
        match envId2env k bp.envid with
        | .error _ => none
        | .ok i => unpinAddrs k i (dataAddrs data datalen)
    | .cmd _ => none
  freed.map fun k =>
    match bp.res with
    | none => k
    | some p => k.setMem (ppageUnpin k.mem p)

/-- `sched_reqcomplete` for the request at place `n` of the driver's list. -/
def Io.complete (s : Io) (n : Nat) : Option Io :=
  (s.pending[n]?).bind fun x =>
    let s := { s with pending := s.pending.eraseIdx n }
    let s :=
      match x.buf.data with
      | .page p => bcDiskreqDone64 s p (!x.buf.read) x.buf.envid
      | _ => s
    (bufFree s.kern x.buf).map s.setKern

/-- `cap_isroot`. -/
def capIsroot (c : Cap) : Bool := c.valid && decide (c.len = 0) && decide (c.perm = clAll)

/-- `struct buf` as it lies in user memory. -/
structure UserBuf where
  sgnext : BitVec 32
  flags : BitVec 32
  blkno : BitVec 64
  bcount : BitVec 32
  sgtot : BitVec 32
  memaddr : BitVec 32
  resptr : BitVec 32
  envid : BitVec 32

/-- Read a `struct buf`. -/
def ldBuf (ram : Ram) (k : Kernel) (cur : Fin nenv) (bp : BitVec 32) : UserBuf where
  sgnext := ldw ram k cur (bp + 4)
  flags := ldw ram k cur (bp + 8)
  blkno := ldw ram k cur (bp + 20) ++ ldw ram k cur (bp + 16)
  bcount := ldw ram k cur (bp + 24)
  sgtot := ldw ram k cur (bp + 28)
  memaddr := ldw ram k cur (bp + 32)
  resptr := ldw ram k cur (bp + 36)
  envid := ldw ram k cur (bp + 40)

/-- `sizeof (struct buf)`. -/
def sizeofBuf : BitVec 32 := 48

/-- The page of a result word: `pa2kva` asserts that there is one. -/
def resultPage (k : Kernel) (cur : Fin nenv) (resptr : BitVec 32) : Option Nat :=
  let p := pgno (envVa2pa k cur resptr)
  if p < k.mem.nppage then some p else none

theorem resultPage_eq {k : Kernel} {cur : Fin nenv} {resptr : BitVec 32} {p : Nat}
    (h : resultPage k cur resptr = some p) : p = pgno (envVa2pa k cur resptr) := by
  unfold resultPage at h
  dsimp only at h
  split at h
  · exact (Option.some.inj h).symm
  · cases h

/-- `struct scsicmd`: the fields that are looked at. -/
structure Scsicmd where
  scsiCmd : BitVec 32
  cmdlen : BitVec 32
  dataAddr : BitVec 32
  datalen : BitVec 32
  flags : BitVec 32

/-- Read a `struct scsicmd`. -/
def ldScsicmd (ram : Ram) (k : Kernel) (cur : Fin nenv) (p : BitVec 32) : Scsicmd where
  scsiCmd := ldw ram k cur (p + 4)
  cmdlen := ldw ram k cur (p + 8)
  dataAddr := ldw ram k cur (p + 12)
  datalen := ldw ram k cur (p + 16)
  flags := ldw ram k cur (p + 32)

/-- The three allocations of `sys_disk_scsicmd`. -/
def kmalloc3 (m : Mem) : Bool × Mem :=
  match kmalloc m with
  | (false, m) => (false, m)
  | (true, m) =>
    match kmalloc m with
    | (false, m) => (false, m)
    | (true, m) => kmalloc m

/-- The checks of `sys_disk_scsicmd`. The result word is neither required nor checked, and the
    data area is checked for reading whichever way the data go. -/
def scsicmdCheck (s : Io) (cur : Fin nenv) (kcap reqbp : BitVec 32) (ram : Ram) :
    Except Errno Unit :=
  let k := s.kern
  match envGetcap (k.envs cur) kcap with
  | .error r => .error r
  | .ok c =>
    let b := ldBuf ram k cur reqbp
    let cmd := ldScsicmd ram k cur b.memaddr
    if !capIsroot c.1 then .error .capInsuff
    else if !isreadableVarange k cur reqbp sizeofBuf then .error .fault
    else if b.flags &&& bScsicmd = 0 then .error .inval
    else if b.envid ≠ (k.envs cur).id then .error .inval
    else if b.flags &&& bScatgath ≠ 0 then .error .inval
    else if s.ndevs ≤ (ldw ram k cur (reqbp + 12)).toNat then .error .notFound
    else if !isreadableVarange k cur b.memaddr 36 then .error .fault
    else if !isreadableVarange k cur cmd.scsiCmd cmd.cmdlen then .error .fault
    else if !isreadableVarange k cur cmd.dataAddr cmd.datalen then .error .fault
    else if BitVec.slt 80 cmd.cmdlen then .error .inval
    else .ok ()

/-- The end of `sys_disk_scsicmd`, once there is memory: the result word's page and the data's
    are pinned, and unpinned again if they lie in too many pieces. -/
def scsicmdSubmit (s : Io) (k : Kernel) (cur : Fin nenv) (reqbp : BitVec 32) (ram : Ram) :
    Option (Ret × Io) :=
  let b := ldBuf ram k cur reqbp
  let cmd := ldScsicmd ram k cur b.memaddr
  (resultPage k cur b.resptr).bind fun res =>
    let k := k.setMem (ppagePin k.mem res)
    (pinAndCountNoncontigs k cur cmd.dataAddr cmd.datalen).bind fun (n, ps, k) =>
      let bp : Buf :=
        { read := decide (b.flags &&& bRead ≠ 0)
          dev := ldw ram k cur (reqbp + 12)
          blkno := b.blkno
          data := .user cmd.dataAddr cmd.datalen
          envid := (k.envs cur).id
          res := some res }
      if diskMaxScatter ≤ n then (bufFree k bp).map fun k => (.err .tooBig, s.setKern k)
      else some (.ok, (s.setKern k).strategy [⟨bp, ps⟩])

/-- `sys_disk_scsicmd`. -/
def sysDiskScsicmd (s : Io) (cur : Fin nenv) (kcap reqbp : BitVec 32) (ram : Ram) :
    Option (Ret × Io) :=
  match scsicmdCheck s cur kcap reqbp ram with
  | .error r => some (.err r, s)
  | .ok () =>
    match kmalloc3 s.kern.mem with
    | (false, m) => some (.err .noMem, s.setMem m)
    | (true, m) => scsicmdSubmit s (s.kern.setMem m) cur reqbp ram

/-- The checks of `sys_disk_mbr` before it pins anything. -/
def mbrCheck (k : Kernel) (cur : Fin nenv) (dev kcap resptr : BitVec 32) : Except Errno Unit :=
  match envGetcap (k.envs cur) kcap with
  | .error r => .error r
  | .ok c =>
    if !capIsroot c.1 then .error .capInsuff
    else if k.ndisks ≤ dev.toNat then .error .notFound
    else if resptr.umod 4 ≠ 0 ∨ !isvawriteable k cur resptr then .error .fault
    else .ok ()

/-- The check of the buffer: for writing if it is to be read from, and the other way round. -/
def mbrBufferOk (k : Kernel) (cur : Fin nenv) (write : Bool) (buffer : BitVec 32) : Bool :=
  if write then iswriteableVarange k cur buffer 512 else isreadableVarange k cur buffer 512

/-- `sys_disk_mbr`. **The result word's page is pinned before the buffer is checked**, and of the
    buffer only the first page is pinned. -/
def sysDiskMbr (s : Io) (cur : Fin nenv) (write : Bool) (dev kcap buffer resptr : BitVec 32) :
    Option (Ret × Io) :=
  match mbrCheck s.kern cur dev kcap resptr with
  | .error r => some (.err r, s)
  | .ok () =>
    (resultPage s.kern cur resptr).bind fun res =>
      let k := s.kern.setMem (ppagePin s.kern.mem res)
      if !mbrBufferOk k cur write buffer then some (.err .fault, s.setKern k)
      else
        match kmalloc k.mem with
        | (false, m) => some (.err .noMem, s.setMem m)
        | (true, m) =>
          let k := k.setMem m
          (resultPage k cur buffer).map fun p =>
            let bp : Buf := ⟨!write, dev, 0, .user buffer 512, (k.envs cur).id, some res⟩
            let ps := (dataAddrs buffer 512).map fun va => pgno (envVa2pa k cur va)
            (.ok, (s.setMem (ppagePin k.mem p)).strategy [⟨bp, ps⟩])

/-- What the first loop of `sys_disk_request` finds out: the number of bytes, and the page of the
    result word. -/
structure DiskCheck where
  bcount : BitVec 32
  res : Option Nat

/-- The end of the first loop: the last segment's result word. -/
def diskCheckRes (k : Kernel) (cur : Fin nenv) (bcount resptr : BitVec 32) :
    Option (Except Errno DiskCheck) :=
  if resptr = 0 then some (.ok ⟨bcount, none⟩)
  else if resptr.umod 4 ≠ 0 ∨ !isvawriteable k cur resptr then some (.error .fault)
  else (resultPage k cur resptr).map fun p => .ok ⟨bcount, some p⟩

/-- The first loop of `sys_disk_request`, from segment `segbp` on. The direction that the disk is
    checked for is the segment's, the direction memory is checked for is the head's (`read`). -/
def diskCheckLoop (fuel : Nat) (k : Kernel) (cur : Fin nenv) (ram : Ram) (pxn : Nat) (c : Cap)
    (bsize : BitVec 32) (read : Bool) :
    Nat → BitVec 32 → BitVec 32 → Option (Except Errno DiskCheck)
  | 0, _, _ => none
  | n + 1, segbp, bcount =>
    if !isreadableVarange k cur segbp sizeofBuf then some (.error .fault)
    else
      let b := ldBuf ram k cur segbp
      let x : Xtnt := ⟨b.blkno, (b.bcount / bsize).setWidth 64⟩
      (pxnAuthorizesXtnt fuel k.pxn pxn c x (if b.flags &&& bRead ≠ 0 then aclR else aclW)).bind
        fun r =>
          match r with
          | .error r => some (.error r)
          | .ok () =>
            if !(if read then iswriteableVarange k cur b.memaddr b.bcount
                else isreadableVarange k cur b.memaddr b.bcount) then some (.error .fault)
            else if b.flags &&& bScatgath ≠ 0 then
              diskCheckLoop fuel k cur ram pxn c bsize read n b.sgnext (bcount + b.bcount)
            else diskCheckRes k cur (bcount + b.bcount) b.resptr

/-- The second loop of `sys_disk_request`: **the segments are read again**, after a word of each
    has been written. `xs` are the requests made so far. -/
def diskCopyLoop (cur : Fin nenv) (dev : BitVec 32) :
    Nat → Ram → BitVec 32 → Nat → List Xfer → Kernel → Option (Except Errno (List Xfer) × Kernel)
  | 0, _, _, _, _, _ => none
  | n + 1, ram, segbp, noncontigs, xs, k =>
    if !isreadableVarange k cur segbp sizeofBuf then none
    else
      let ram := stw ram k cur (segbp + 12) dev
      let b := ldBuf ram k cur segbp
      match kmalloc k.mem with
      | (false, m) => some (.error .noMem, k.setMem m)
      | (true, m) =>
        (pinAndCountNoncontigs (k.setMem m) cur b.memaddr b.bcount).bind fun (nc, ps, k) =>
          let noncontigs := noncontigs + nc
          if diskMaxScatter ≤ noncontigs then some (.error .inval, k)
          else
            let bp : Buf :=
              { read := decide (b.flags &&& bRead ≠ 0)
                dev := dev
                blkno := b.blkno
                data := if b.flags &&& bScsicmd ≠ 0 then .cmd b.memaddr
                  else .user b.memaddr b.bcount
                envid := (k.envs cur).id
                res := none }
            let xs := xs ++ [⟨bp, ps⟩]
            if b.flags &&& bScatgath ≠ 0 then diskCopyLoop cur dev n ram b.sgnext noncontigs xs k
            else some (.ok xs, k)

/-- Set `b_resptr` of the last request. -/
def setLastRes (res : Option Nat) (xs : List Xfer) : List Xfer :=
  match xs.getLast? with
  | none => []
  | some x => xs.dropLast ++ [{ x with buf := { x.buf with res := res } }]

/-- The first half of `sys_disk_request`, on a head without `B_SCSICMD`: the device and what the
    first loop found out, or the value that the call returns. **`si_disks` is indexed without a
    check**; for a device that is no disk there is no result here. -/
def diskRequestCheck (fuel : Nat) (k : Kernel) (cur : Fin nenv) (xn : Option XnName)
    (reqbp kcap : BitVec 32) (ram : Ram) : Option (Except Ret (BitVec 32 × DiskCheck)) :=
  let head := ldBuf ram k cur reqbp
  match envGetcap (k.envs cur) kcap with
  | .error r => some (.error (.err r))
  | .ok c =>
    match xn with
    | none => some (.error .fault)
    | some xn =>
      match lookupPxn k.pxn xn with
      | none => some (.error (.err .notFound))
      | some p =>
        (diskSectorSz k xn.dev).bind fun bsize =>
          (diskCheckLoop fuel k cur ram p c.1 bsize (decide (head.flags &&& bRead ≠ 0)) fuel
            reqbp 0).map fun r =>
            match r with
            | .error r => .error (.err r)
            | .ok ch =>
              if head.flags &&& bScatgath ≠ 0 ∧ ch.bcount ≠ head.sgtot then .error (.err .inval)
              else if ch.bcount = 0 then .error .ok
              else if ch.bcount &&& (bsize - 1) ≠ 0 then .error (.err .inval)
              else .ok (xn.dev, ch)

/-- If the call gets so far, the device that `xn` names is a disk. -/
def OnDisk (k : Kernel) (cur : Fin nenv) (xn : Option XnName) (reqbp kcap : BitVec 32) (ram : Ram) :
    Prop :=
  (ldBuf ram k cur reqbp).flags &&& bScsicmd = 0 → ∀ c name p, envGetcap (k.envs cur) kcap = .ok c →
    xn = some name → lookupPxn k.pxn name = some p → (diskSectorSz k name.dev).isSome = true

/-- `sys_disk_request`. -/
def sysDiskRequest (fuel : Nat) (s : Io) (cur : Fin nenv) (xn : Option XnName)
    (reqbp kcap : BitVec 32) (ram : Ram) : Option (Ret × Io) :=
  let k := s.kern
  if !isreadableVarange k cur reqbp sizeofBuf then none
  else if (ldBuf ram k cur reqbp).flags &&& bScsicmd ≠ 0 then sysDiskScsicmd s cur kcap reqbp ram
  else
    (diskRequestCheck fuel k cur xn reqbp kcap ram).bind fun r =>
      match r with
      | .error r => some (r, s)
      | .ok (dev, ch) =>
        (diskCopyLoop cur dev fuel ram reqbp 0 [] k).map fun (r, k) =>
          match r with
          | .error r => (.err r, s.setKern k)
          | .ok xs =>
            (.ok, (s.setKern (k.setMem (pinRes k.mem ch.res))).strategy (setLastRes ch.res xs))

end Exokernel
