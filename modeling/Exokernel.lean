import Exokernel.Proof.Freeze
import Exokernel.Proof.Guard
import Exokernel.Proof.Ticks
import Exokernel.Proof.Malloc
import Exokernel.Proof.RingEdits
import Exokernel.Proof.AllocMap
import Exokernel.Proof.Links
import Exokernel.Proof.FilterRefs
import Exokernel.Proof.Classify
import Exokernel.Proof.WriteOrder
import Exokernel.Proof.Cycles
import Exokernel.Proof.Assembler
import Exokernel.Proof.Rollback
import Exokernel.Proof.Acls
import Exokernel.Proof.Predicates
import Exokernel.Proof.OpenFiles
import Exokernel.Proof.ForkIsolates
import Exokernel.Proof.Extents
import Exokernel.Proof.RevokeEnds
import Exokernel.Proof.FilterMeaning
import Exokernel.Proof.DiskRequests
import Exokernel.Proof.PipeReady
import Exokernel.Libos.Faults
import Exokernel.Libos.Locks
