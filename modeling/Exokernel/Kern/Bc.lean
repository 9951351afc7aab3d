import Exokernel.Kern.Pmap

/-!
# The buffer cache's system calls — `kern/bc.c`

A user fills the cache in two ways: `sys_bc_insert64` puts a page of its own under a block's
name, `sys_bc_read_and_insert` has the kernel find pages and read blocks into them.
`sys_bc_buffer_map` maps what is cached, `sys_bc_flush64` drops what nobody maps.

A request to the disk is a chain of `struct buf`, one for each block, that keep their pages
pinned. What the driver does with it later is not modelled. A call has no result where the
kernel stops: an assertion about the device fails, a sector size of zero divides, or a pxn
that was freed is followed.
-/
set_option autoImplicit false

namespace Exokernel

/-- `BC_COMING_IN` as a buffer's first state. -/
def bcComingInState : BitVec 8 := 2

/-- `BC_SYNC_ANY`. -/
def bcSyncAny : Nat := maxDisks + 1

/-- `disk_sector_sz`, which asserts that there is such a disk. -/
def diskSectorSz (k : Kernel) (dev : BitVec 32) : Option (BitVec 32) :=
  if dev.toNat < k.ndisks ∧ (k.disks dev.toNat).bsize ≠ 0 then some (k.disks dev.toNat).bsize
  else none

/-! ## 1. `sys_bc_insert64` -/

/-- The extent of block `b`, in sectors. -/
def blockXtnt (k : Kernel) (dev : BitVec 32) (b : BitVec 64) : Option Xtnt :=
  if maxDisks ≤ dev.toNat then some ⟨b, 4096⟩
  else
    (diskSectorSz k dev).map fun sz =>
      ⟨b * 4096 / sz.setWidth 64, ((4096 : BitVec 32) / sz).setWidth 64⟩

/-- The checks of `sys_bc_insert64` on the page. The limits the page has are taken for the
    numbers of its mappings. -/
def bcInsertCheckPage (k : Kernel) (c : Cap) (ppn : BitVec 32) (ps : PpState) :
    Except Errno Unit :=
  if ppn = 0 ∨ k.mem.nppage ≤ ppn.toNat then .error .inval
  else
    let pp := k.mem.pages ppn.toNat
    if pp.status ≠ .user then .error .inval
    else if !ppcompatState pp.state.readers.toNat pp.state.writers.toNat ps then .error .share
    else ppageAclCheck k.mem ppn.toNat c aclW

/-- `sys_bc_insert64`. `xn` and `ps` are what the user's pointers point to. -/
def sysBcInsert64 (fuel : Nat) (k : Kernel) (cur : Fin nenv) (xn : Option XnName)
    (b : BitVec 64) (bufState : BitVec 8) (kcap ppn : BitVec 32) (ps : Option PpState) :
    Option (Ret × Kernel) :=
  match kmalloc k.mem with
  | (false, m) => some (.fault, (k.setMem m).halt)
  | (true, m) =>
    let k := k.setMem m
    match xn, ps with
    | some xn, some ps =>
      match envGetcap (k.envs cur) kcap with
      | .error r => some (.err r, k)
      | .ok c =>
        match bcInsertCheckPage k c.1 ppn ps with
        | .error r => some (.err r, k)
        | .ok () =>
          match lookupPxn k.pxn xn with
          | none => some (.err .notFound, k)
          | some p =>
            (blockXtnt k xn.dev b).bind fun x =>
              (pxnAuthorizesXtnt fuel k.pxn p c.1 x aclW).map fun r =>
                match r with
                | .error r => (.err r, k)
                | .ok () =>
                  if (bcLookup64 k.mem xn.dev b).isSome then (.err .exists, k)
                  else
                    match bcInsert64 k.mem xn.dev b ppn.toNat bufState with
                    | (.error r, m) => (.err r, k.setMem m)
                    | (.ok _, m) =>
                      (.ok, (k.setMem m).modPage ppn.toNat ({ · with state := ps }))
    | _, _ => some (.fault, k)

/-! ## 2. `sys_bc_read_and_insert` -/

/-- `struct buf`: where a block goes, and the page that hears of the result. -/
structure DiskBuf where
  blkno : BitVec 64
  page : Nat
  res : Option Nat

/-- Pin a page if there is one. -/
def pinRes (m : Mem) : Option Nat → Mem
  | none => m
  | some p => ppagePin m p

/-- `disk_prepare_bc_request`: add a block to the end of a chain. -/
def diskPrepareBcRequest (k : Kernel) (dev : BitVec 32) (blk : BitVec 64) (page : Nat)
    (res : Option Nat) (chain : List DiskBuf) : Except Errno (List DiskBuf) × Kernel :=
  let d := k.disks dev.toNat
  let blkno := blk * 4096 / d.bsize.setWidth 64
  if k.ndisks ≤ dev.toNat ∨ d.size ≤ blkno then (.error .inval, k)
  else
    match kmalloc k.mem with
    | (false, m) => (.error .noMem, k.setMem m)
    | (true, m) =>
      let m := ppagePin m page
      let after (last : DiskBuf) := last.blkno + ((4096 : BitVec 32) / d.bsize).setWidth 64
      if chain.getLast?.all fun last => blkno = after last then
        (.ok (chain ++ [⟨blkno, page, res⟩]), k.setMem (pinRes m res))
      else (.error .inval, k.setMem (ppageUnpin m page))

/-- `disk_buf_free`. -/
def diskBufFree (m : Mem) (bp : DiskBuf) : Mem :=
  let m := ppageUnpin m bp.page
  match bp.res with
  | none => m
  | some p => ppageUnpin m p

/-- `disk_buf_free_chain`. -/
def diskBufFreeChain (m : Mem) (chain : List DiskBuf) : Mem := chain.foldl diskBufFree m

/-- `disk_bc_request`. The chain goes to the driver, unless it starts at an odd sector. -/
def diskBcRequest (chain : List DiskBuf) : Except Errno Unit :=
  match chain with
  | [] => .error .inval
  | bp :: _ => if bp.blkno.umod 8 ≠ 0 then .error .inval else .ok ()

/-- What is left of the loop of `bc_read_extent64`: how it ended, how many blocks are in the
    cache, and the chain. -/
structure ReadLoop where
  result : Except Errno Unit
  done : Nat
  chain : List DiskBuf
  k : Kernel

/-- The loop of `bc_read_extent64`, `left` blocks from `block + i` on. -/
def bcReadLoop (dev : BitVec 32) (block : BitVec 64) (res : Option Nat) (userreq : Bool) :
    Nat → Nat → List DiskBuf → Kernel → ReadLoop
  | 0, i, chain, k => ⟨.ok (), i, chain, k⟩
  | left + 1, i, chain, k =>
    let blk := block + BitVec.ofNat 64 i
    match ppageGetReclaimableBuffer k.mem dev blk bcComingInState userreq with
    | (.error r, m) => ⟨.error r, i, chain, k.setMem m⟩
    | (.ok b, m) =>
      let p := (m.bufs b).ppn
      let k := (k.setMem m).modPage p fun pp =>
        { pp with
          acl := aclInit pp.acl pp.acl.length
          state := ⟨ppAccessAll, ppAccessAll⟩ }
      match diskPrepareBcRequest k dev blk p (if left = 0 then res else none) chain with
      | (.error r, k) =>
        ⟨.error r, i, chain, k.setMem (ppageFree (ppageReclaimBuffer k.mem p .free) p)⟩
      | (.ok chain, k) =>
        bcReadLoop dev block res userreq left (i + 1) chain (k.setMem (bcSetClean k.mem b))

/-- The clean-up of `bc_read_extent64`, `left` blocks from `block + j` on. -/
def bcReadCleanup (dev : BitVec 32) (block : BitVec 64) : Nat → Nat → Mem → Mem
  | 0, _, m => m
  | left + 1, j, m =>
    match bcLookup64 m dev (block + BitVec.ofNat 64 j) with
    | none => { m with panicked := true }
    | some b =>
      let p := (m.bufs b).ppn
      let m := m.assert (p ≠ 0)
      bcReadCleanup dev block left (j + 1) (ppageFree (ppageReclaimBuffer m p .free) p)

/-- `bc_read_extent64`. -/
def bcReadExtent64 (k : Kernel) (dev : BitVec 32) (block : BitVec 64) (num : Nat)
    (res : Option Nat) (userreq : Bool) : Ret × Kernel :=
  let r := bcReadLoop dev block res userreq num 0 [] k
  let cleanup (e : Errno) : Ret × Kernel :=
    (.err e, r.k.setMem (bcReadCleanup dev block r.done 0 (diskBufFreeChain r.k.mem r.chain)))
  match r.result with
  | .error e => cleanup e
  | .ok () =>
    match diskBcRequest r.chain with
    | .error e => cleanup e
    | .ok () => (.ok, r.k)

/-- The page behind `resptr` in the caller's address space. A null pointer asks for no result;
    one that is not aligned or not writable is refused. -/
def resPage (k : Kernel) (cur : Fin nenv) (resptr : BitVec 32) : Except Errno (Option Nat) :=
  if resptr = 0 then .ok none
  else
    let flags := pgP ||| pgU ||| pgW
    match (k.envs cur).pd.bind fun d => k.pte d resptr with
    | none => .error .fault
    | some pte =>
      if resptr.umod 4 ≠ 0 ∨ pte &&& flags ≠ flags then .error .fault
      else .ok (some (pgno pte))

/-- `sys_bc_read_and_insert`. -/
def sysBcReadAndInsert (k : Kernel) (cur : Fin nenv) (dev : BitVec 32) (b : BitVec 64)
    (pagecount resptr : BitVec 32) : Ret × Kernel :=
  if pagecount = 0 ∨ 16 < pagecount then (.err .inval, k)
  else if k.ndisks ≤ dev.toNat then (.err .inval, k)
  else if (List.range pagecount.toNat).any fun i =>
      (bcLookup64 k.mem dev (b + BitVec.ofNat 64 i)).isSome then (.err .exists, k)
  else
    match resPage k cur resptr with
    | .error r => (.err r, k)
    | .ok res => bcReadExtent64 k dev b pagecount.toNat res true

/-! ## 3. `sys_bc_buffer_map` -/

/-- The extent that is checked before a buffer is mapped: the low word of the block number,
    multiplied in 32 bits. -/
def bufferXtnt (k : Kernel) (dev : BitVec 32) (buf : BcEntry) : Option Xtnt :=
  if maxDisks ≤ dev.toNat then some ⟨buf.blk.setWidth 64, 4096⟩
  else
    (diskSectorSz k dev).map fun sz =>
      ⟨(buf.blk * 4096 / sz).setWidth 64, ((4096 : BitVec 32) / sz).setWidth 64⟩

/-- The end of `sys_bc_buffer_map`: the page is taken off `free_bufs` if it is there, and
    mapped. Its limits are not looked at. -/
def bufferMapPage (k : Kernel) (d : Fin nenv) (envid : BitVec 32) (p : Nat) (va pte : BitVec 32) :
    Ret × Kernel :=
  let k := if (k.mem.pages p).status = .free then k.setMem (ppageReuseBuffer k.mem p) else k
  match ppageInsert k d envid p va (pte &&& pgMask) with
  | (.error r, k) =>
    (.err r, if (k.mem.pages p).refcnt = 0 then k.setMem (ppageFree k.mem p) else k)
  | (.ok (), k) => (.ok, k)

/-- `sys_bc_buffer_map` and `sys_self_bc_buffer_map`. -/
def sysBcBufferMap (fuel : Nat) (k : Kernel) (cur : Fin nenv)
    (tgt : Option (BitVec 32 × BitVec 32)) (xn : Option XnName) (kx pte va : BitVec 32) :
    Option (Ret × Kernel) :=
  match targetEnv k cur tgt with
  | .error r => some (.err r, k)
  | .ok i =>
    if !isPresent pte then some (.err .inval, k)
    else
      match xn with
      | none => some (.fault, k)
      | some xn =>
        match envGetcap (k.envs cur) kx with
        | .error r => some (.err r, k)
        | .ok c =>
          let pte := pte &&& ~~~pgMbz ||| pgU
          let p := pgno pte
          if k.mem.nppage ≤ p ∨ p < 1 then some (.err .inval, k)
          else
            match (k.mem.pages p).buf with
            | none => some (.err .buffer, k)
            | some b =>
              match lookupPxn k.pxn xn with
              | none => some (.err .notFound, k)
              | some q =>
                if xn.dev ≠ (k.mem.bufs b).dev then some (.err .inval, k)
                else
                  (bufferXtnt k xn.dev (k.mem.bufs b)).bind fun x =>
                    (pxnAuthorizesXtnt fuel k.pxn q c.1 x (if isWritable pte then aclW else 0)).map
                      fun r =>
                        match r with
                        | .error r => (.err r, k)
                        | .ok () =>
                          match (k.envs i).pd with
                          | none => (.fault, k.halt)
                          | some d => bufferMapPage k d (k.envs i).id p va pte

/-! ## 4. `sys_bc_flush64` -/

/-- The buffers of one queue for which `sel` holds, flushed in order. The walk has taken the
    next link before a buffer is flushed, and flushing one leaves the others linked. -/
def flushQueue (sel : BcEntry → Bool) : List Nat → Mem → Mem
  | [], m => m
  | b :: bs, m => flushQueue sel bs (if sel (m.bufs b) then bcFlushByBuf m (some b) else m)

/-- All queues, one after the other. -/
def flushQueues (sel : BcEntry → Bool) : List (Fin bcNumQs) → Mem → Mem
  | [], m => m
  | q :: qs, m => flushQueues sel qs (flushQueue sel (m.bcQs q) m)

/-- `flush_by_dev` for `num` blocks from `b + i` on. -/
def flushBlocks (dev : BitVec 32) (b : BitVec 64) : Nat → Nat → Mem → Mem
  | 0, _, m => m
  | num + 1, i, m =>
    flushBlocks dev b num (i + 1) (bcFlushByBuf m (bcLookup64 m dev (b + BitVec.ofNat 64 i)))

/-- `sys_bc_flush64`. -/
def sysBcFlush64 (k : Kernel) (d : BitVec 32) (b : BitVec 64) (num : BitVec 32) : Kernel :=
  if d.toNat ≠ bcSyncAny ∧ b.toNat ≠ bcSyncAny then
    if bcNumQs < num.toNat then
      k.setMem (flushQueues (fun buf => decide (b ≤ buf.blk64) &&
        decide (buf.blk64 < b + num.setWidth 64) && decide (buf.dev = d)) (List.finRange _) k.mem)
    else k.setMem (flushBlocks d b num.toNat 0 k.mem)
  else if d.toNat = bcSyncAny then
    k.setMem (flushQueues (fun _ => true) (List.finRange _) k.mem)
  else k.setMem (flushQueues (fun buf => decide (buf.dev = d)) (List.finRange _) k.mem)

end Exokernel
