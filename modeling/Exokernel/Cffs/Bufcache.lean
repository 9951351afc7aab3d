import Mathlib
import Exokernel.Lib.Bytes

/-!
# The server's view of the buffer cache — `exos/cffs_prot.h`, `bin/cffsd/cffsd.c`

CFFS is a library file system: its clients hold the blocks and ask a trusted server, `cffsd`, for
each change to the metadata in them. A request does not carry the metadata. It carries
**references**, a device, a block and an offset each, and the server looks the blocks up in the
shared buffer cache.

`translate_address` is taken to return the byte that is named: an offset is one inside its
block. What comes after the last byte of a block is not part of it, and bytes that a request
stores there are not followed.
-/
set_option autoImplicit false

namespace Exokernel
namespace Cffs

/-- A block of a device. -/
structure Blk where
  dev : BitVec 32
  blk : BitVec 32
deriving DecidableEq

/-- `BLOCK_SIZE`. -/
abbrev blockSize : Nat := 4096

instance : NeZero blockSize := ⟨by decide⟩

/-- `struct bc_ref`. -/
structure BcRef where
  blk : Blk
  off : Fin blockSize
deriving DecidableEq

/-- `translate_address`: null if the block is not in the cache. Which blocks are there is up to
    the moment of the request. -/
def translateAddress (resident : Blk → Bool) (r : BcRef) : Option BcRef :=
  if resident r.blk then some r else none

theorem translateAddress_resident {resident : Blk → Bool} {r : BcRef}
    (h : resident r.blk = true) : translateAddress resident r = some r := by
  unfold translateAddress
  rw [h]
  rfl

theorem translateAddress_cases (resident : Blk → Bool) (r : BcRef) :
    translateAddress resident r = some r ∨ translateAddress resident r = none := by
  unfold translateAddress
  split
  · exact Or.inl rfl
  · exact Or.inr rfl

/-- What a request is refused with; `kernel` is the result of a call to the kernel that failed. -/
inductive CffsErr where
  | inval | exists | quota
  | kernel (ret : Int)
deriving DecidableEq

end Cffs
end Exokernel
