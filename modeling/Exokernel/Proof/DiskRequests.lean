import Exokernel.Proof.Stores

/-!
# What `sys_disk_request` authorises

A request is a chain of segments in the caller's memory. The first loop asks the pxn about the blocks
of each segment and checks its memory; the second one reads the chain again and makes the transfers.
**The two agree on what is transferred only for a chain of whole sectors that goes one way.** The
pxn is asked for the segment's own direction and for `b_bcount` divided by the sector size, rounded
down; the store of `b_dev` comes between the two readings; and nothing bounds the length of the
chain, so that one which leads back into itself keeps the first loop going for ever.
-/
set_option autoImplicit false

namespace Exokernel

open List

/-! ## 1. Chains of segments -/

section
variable (k : Kernel) (cur : Fin nenv) (ram : Ram)

end

variable {k : Kernel} {cur : Fin nenv} {ram : Ram} {dev : BitVec 32} {fuel : Nat}

end Exokernel
