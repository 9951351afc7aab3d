import Exokernel.Libos.Pipe

/-!
# When a pipe is ready

`select` asks `pipe_select`, and sleeps with the predicate of `pipe_select_pred` if nothing is
ready. **Both agree with the calls in every state of a pipe but for three kinds**: the end of the
file, a pipe that nobody reads any more, and an empty pipe after a direct copy, for nothing but
the next read that waits clears `done`.
-/
set_option autoImplicit false

namespace Exokernel.Libos

namespace Pipe

/-- The read or the write of one byte returns without waiting. -/
def ReturnsAtOnce (p : Pipe) (writer nb : Bool) : Bool → Prop
  | true => ∀ b, ∃ r q, p.pipeWrite writer nb [b] = some (.returns r, q)
  | false => ∃ r q, p.pipeRead writer nb 1 = some (.returns r, q)

/-- **The three agree**: `pipe_select`, the call, and the predicate where there is one. -/
@[mk_iff]
structure Agrees (p : Pipe) (writer rw nb : Bool) : Prop where
  call : p.select writer rw = true ↔ p.ReturnsAtOnce writer nb rw
  pred : ∀ ts ∈ pipeSelectPred writer rw, p.holds true ts = p.select writer rw

/-- The call would find nothing to read, or no room. -/
def Stuck (p : Pipe) (writer : Bool) : Prop := (if writer then p.isFull else p.isEmpty) = true

variable {p : Pipe} {nb : Bool}

theorem nbytes_pos (h : p.isEmpty = false) : 0 < p.nbytes := by
  have hne : p.head = p.tail → p.full = true := by simpa [isEmpty] using h
  unfold nbytes isFull
  split
  · decide
  rename_i hfull
  split
  · have : p.head ≠ p.tail := fun he => hfull (by simp [he, hne he])
    omega
  · omega

theorem nbytes_lt (h : p.isFull = false) : p.nbytes < pipeBufferSize := by
  rw [nbytes, h]
  split
  · contradiction
  split <;> omega

/-- A read of one byte waits if there is none, and a writer, and it is meant to. -/
theorem pipeRead_one : p.ReturnsAtOnce false nb false ↔
    p.isEmpty = false ∨ p.inuse true = false ∨ nb = true := by
  cases he : p.isEmpty with
  | true =>
    cases hw : p.inuse true <;> cases nb <;>
      simp [ReturnsAtOnce, pipeRead, readLoop, he, hw]
  | false =>
    have hmin : min 1 p.nbytes = 1 := Nat.min_eq_left (nbytes_pos he)
    simp [ReturnsAtOnce, pipeRead, readLoop, he, piperead, hmin]

theorem pipeWrite_one : p.ReturnsAtOnce true nb true ↔
    p.isFull = false ∨ p.inuse false = false ∨ nb = true := by
  cases hf : p.isFull with
  | true =>
    cases hr : p.inuse false <;> cases nb <;>
      simp [ReturnsAtOnce, pipeWrite, writeLoop, hf, hr]
  | false =>
    have hpos := nbytes_lt hf
    have hmin : min 1 (pipeBufferSize - p.nbytes) = 1 := Nat.min_eq_left (by omega)
    have hone : ∀ b, (p.pipewrite [b]).1 = 1 := by
      intro b
      unfold pipewrite
      split
      · rename_i hn
        have : min 1 p.n = 1 := Nat.min_eq_left hn
        simp [this]
      · exact hmin
    cases hr : p.inuse false <;> simp [ReturnsAtOnce, pipeWrite, writeLoop, hf, hr, hone]

theorem head_eq_tail : BitVec.ofNat 32 p.head = BitVec.ofNat 32 p.tail ↔ p.head = p.tail := by
  constructor
  · intro h
    have hnat := congrArg BitVec.toNat h
    simp only [BitVec.toNat_ofNat] at hnat
    have hsize : pipeBufferSize = 8192 := rfl
    omega
  · intro h
    rw [h]

theorem holds_read : p.holds true wkMkreadPred = (!p.inuse true || !p.isEmpty || p.done) := by
  cases hi : p.inuse true <;> cases hf : p.full <;> cases hd : p.done <;>
    simp [wkMkreadPred, holds, WkOp.holds, PipeTerm.val, word, isEmpty, hi, hf, hd, head_eq_tail]

theorem holds_write : p.holds true wkMkwritePred = (!p.inuse false || !p.isFull) := by
  cases hi : p.inuse false <;> cases hf : p.full <;>
    simp [wkMkwritePred, holds, WkOp.holds, PipeTerm.val, word, isFull, hi, hf, head_eq_tail]

end Pipe

/-- **Readiness is consistent unless the call is stuck** and does not wait all the same, for it
    must not or the other end is closed, or a direct copy has left `done` behind. -/
theorem pipe_ready_iff (p : Pipe) (writer rw nb : Bool) :
    p.Agrees writer rw nb ↔ writer ≠ rw ∨ ¬p.Stuck writer ∨
      (nb = false ∧ p.inuse (!writer) = true ∧ (writer = false → p.done = false)) := by
  rw [Pipe.agrees_iff]
  cases writer with
  | false =>
    cases rw with
    | false =>
      rw [Pipe.pipeRead_one]
      simp only [pipeSelectPred, Option.mem_some_iff, forall_eq', Pipe.holds_read, Pipe.select,
        Pipe.Stuck, Bool.not_false]
      cases p.isEmpty <;> cases p.inuse true <;> cases nb <;> cases p.done <;> simp
    | true => simp [Pipe.select, pipeSelectPred, Pipe.ReturnsAtOnce, Pipe.pipeWrite]
  | true =>
    cases rw with
    | false => simp [Pipe.select, pipeSelectPred, Pipe.ReturnsAtOnce, Pipe.pipeRead]
    | true =>
      rw [Pipe.pipeWrite_one]
      simp only [pipeSelectPred, Option.mem_some_iff, forall_eq', Pipe.holds_write, Pipe.select,
        Pipe.Stuck, Bool.not_true]
      cases p.isFull <;> cases p.inuse false <;> cases nb <;> simp

/-- A slot before its first use. -/
def unusedPipe : Pipe := ⟨fun _ => false, 0, 0, false, fun _ => 0, false, 0, []⟩

/-- **The end of the file is not ready**: the writer has closed an empty pipe, a read returns, and
    `pipe_select` reports nothing. After a direct copy the predicate of an empty pipe holds. -/
theorem pipe_end_unready :
    ¬(unusedPipe.init.close true).Agrees false false false ∧
    ∃ p₁ p₂ p₃, unusedPipe.init.pipeRead false false 1 = some (.waits 0, p₁) ∧
      p₁.pipeWrite true false [7] = some (.returns (.ok 1), p₂) ∧
      p₂.readWake false 1 none = some (.returns (.ok [7]), p₃) ∧
      ¬p₃.Agrees false false false := by
  refine ⟨fun h => ?_, _, _, _, rfl, rfl, rfl, fun h => ?_⟩
  · have hready := h.call.mpr ⟨.ok [], _, rfl⟩
    cases hready
  · have hpred := h.pred wkMkreadPred rfl
    cases hpred

end Exokernel.Libos
