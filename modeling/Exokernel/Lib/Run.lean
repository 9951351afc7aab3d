import Mathlib.Logic.Relation

/-!
# Guarded runs — what holds along every sequence of calls

A kernel is driven by calls: the next state is fixed by the current state and
the call that is made. `Reaches step ok s t` says that some sequence of calls
leads from `s` to `t`, **where every single call met the guard `ok` in the
state it was made in**. An unguarded run is the case `ok = fun _ _ => True`.

The induction over a run is packaged here once (`Reaches.invariant`). What is
left for a component is one lemma per call.
-/
set_option autoImplicit false

namespace Exokernel
namespace Run

variable {σ ι : Type*}

/-- Some sequence of calls, each within the guard when it is made, leads from
    one state to the other. -/
def Reaches (step : σ → ι → σ → Prop) (ok : σ → ι → Prop) : σ → σ → Prop :=
  Relation.ReflTransGen fun s t => ∃ i, ok s i ∧ step s i t

variable {step : σ → ι → σ → Prop} {ok : σ → ι → Prop} {s t u : σ} {i : ι}

theorem Reaches.refl : Reaches step ok s s :=
  Relation.ReflTransGen.refl

theorem Reaches.call (h : Reaches step ok s t) (hok : ok t i) (hstep : step t i u) :
    Reaches step ok s u :=
  Relation.ReflTransGen.tail h ⟨i, hok, hstep⟩

/-- **The invariant rule.** A property that every guarded call keeps holds in
    every state a guarded run reaches. -/
theorem Reaches.invariant {I : σ → Prop} (h : Reaches step ok s t) (h0 : I s)
    (hstep : ∀ s i t, I s → ok s i → step s i t → I t) : I t := by
  induction h with
  | refl => exact h0
  | tail _ hlast ih =>
    obtain ⟨i, hok, hi⟩ := hlast
    exact hstep _ i _ ih hok hi

/-- Make the calls of a list one after the other. -/
def execAll (exec : σ → ι → Option σ) : List ι → σ → Option σ
  | [], s => some s
  | i :: is, s => (exec s i).bind (execAll exec is)

/-- A list of calls that all return, each within the guard, is a run. -/
theorem reaches_execAll {exec : σ → ι → Option σ} (is : List ι) (hok : ∀ s, ∀ i ∈ is, ok s i)
    (h : execAll exec is s = some t) : Reaches (fun s i t => exec s i = some t) ok s t := by
  induction is generalizing s with
  | nil =>
    obtain rfl : s = t := by simpa [execAll] using h
    exact .refl
  | cons i is ih =>
    obtain ⟨u, hu, h⟩ := Option.bind_eq_some_iff.mp h
    have hrest := ih (fun s j hj => hok s j (List.mem_cons_of_mem _ hj)) h
    exact Relation.ReflTransGen.head ⟨i, hok s i (by simp), hu⟩ hrest

end Run
end Exokernel
