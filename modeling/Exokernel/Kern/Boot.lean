import Exokernel.Kern.EnvCalls

/-!
# Boot

The state the kernel starts its first environment in. The proofs about runs start from
any state in which the bookkeeping is right; these are the states that show there is
one.
-/
set_option autoImplicit false

namespace Exokernel

/-- The page array and the cache as `ppage_init` and `bc_init` leave them: the pages
    that boot found free are on `free_list`, and no header has been made yet (the
    hash queues fill the first page of the window). -/
def bootMem (n : Nat) (hn : n ≤ 2 ^ 16) (status : Nat → PpStatus) : Mem where
  nppage := n
  nppage_le := hn
  pages := fun p => Ppage.init ⟨[], 0, .inval, ⟨0, 0⟩, [], 0, 0, none, 0⟩ (status p)
  freeList := ((List.range n).filter fun p => status p = .free).reverse
  freeBufs := []
  siNfreepages := BitVec.ofNat 32 ((List.range n).filter fun p => status p = .free).length
  siNfreebufpages := 0
  siNdpages := 0
  bufs := fun _ => ⟨0, 0, 0, 0, 0, false, false, 0, bcEmpty⟩
  bcQs := fun _ => []
  bcFreeList := []
  bcNextPage := 1
  bcUpt := fun _ => 0
  mallocs := fun _ => .block
  panicked := false

/-- A capability for everything. -/
def rootCap : ClistCap := ⟨⟨clAll, true, false, 0, fun _ => 0⟩, fun _ => rfl⟩

/-- The first environment: process 0, holding `root`, with an empty address space. -/
def bootEnv (root : ClistCap) : Env :=
  ⟨0, .ok, some ⟨0, 0, Cap.null⟩, some 0, Function.update (fun _ => ClistCap.null) 0 root⟩

/-- The kernel with its first environment. Page `pdir` is that environment's page
    directory; there is one disk and nothing cached. -/
def bootKernel (m : Mem) (root : ClistCap) (pdir : Nat) (disk : Disk) : Kernel where
  mem := m
  envs := fun i => if i = 0 then bootEnv root else Env.zero
  pds := fun d => if d = 0 then some (EnvPd.blank pdir) else none
  kernTables := fun _ => none
  envFreeList := (List.finRange nenv).drop 1
  nextEnvId := 1
  pxn := .empty
  ndisks := 1
  ndisks_le := by decide
  disks := fun _ => disk
  micropart := fun _ => ⟨0, false, 0⟩
  headers := fun _ => ⟨0, 0, 0, fun _ => ⟨Cap.null, 0⟩⟩
  halted := false

theorem eight_le : 8 ≤ 2 ^ 16 := by decide

/-- A small machine: eight pages, of which page 0 is reserved and page 1 the first
    environment's directory, and one disk. -/
def smallKernel : Kernel :=
  bootKernel
    (bootMem 8 eight_le fun p => if p = 0 then .inval else if p = 1 then .kernel else .free)
    rootCap 1 ⟨512, 0x100000, ⟨0, 0⟩⟩

end Exokernel
