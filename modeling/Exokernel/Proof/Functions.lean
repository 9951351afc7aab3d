import Exokernel.Lib.Outcome
import Exokernel.Xn.Udf

/-!
# Untrusted functions — what they can depend on

A function sees the bytes that it may load, the registers that it uses and its own set. This
is what remains to be said about a function that nobody has written down: **which parts of the
state it cannot change, and which parts it cannot tell apart.**
-/
set_option autoImplicit false

namespace Exokernel.Xn

open Outcome

/-! ## 1. What an instruction adds -/

section Adds

variable {c c' : Cpu} {i : Inst} {nx : Next} {v : View}

end Adds

/-! ## 2. What a function looks at -/

section Looks

variable {c : Cpu} {i : Inst} {e : Ext} {m m' : Mem} {base : Nat} {reads : Option Ext}

end Looks

end Exokernel.Xn
