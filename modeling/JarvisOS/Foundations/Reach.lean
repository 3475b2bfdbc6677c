import Mathlib.Logic.Function.Iterate
import Mathlib.Tactic.Common

/-!
# Reachable states

The states of a transition system that can be reached from its initial ones, and the invariant
rule: what holds initially and is preserved by every step from a reachable state holds of every
reachable state.
-/

namespace Foundations

/-- The states reachable from `init` by `step`. -/
inductive Reach {σ : Type*} (init : σ → Prop) (step : σ → σ → Prop) : σ → Prop
  | start {s : σ} (h : init s) : Reach init step s
  | next {s t : σ} (hs : Reach init step s) (ht : step s t) : Reach init step t

namespace Reach

variable {σ : Type*} {init : σ → Prop} {step : σ → σ → Prop} {s t : σ}

/-- **The invariant rule.** -/
theorem invariant {I : σ → Prop} (h : Reach init step s) (h0 : ∀ s, init s → I s)
    (h1 : ∀ s t, Reach init step s → I s → step s t → I t) : I s := by
  induction h with
  | start h => exact h0 _ h
  | next hs ht ih => exact h1 _ _ hs ih ht

/-- From fewer initial states no more states are reached. -/
theorem mono {init' : σ → Prop} (h : Reach init step s) (hinit : ∀ s, init s → init' s) :
    Reach init' step s :=
  h.invariant (fun s h0 => .start (hinit s h0)) fun _ _ _ hi hs => .next hi hs

/-- A step that is a function, taken several times. -/
theorem iterate {f : σ → σ} {n : ℕ} (h : Reach init step s)
    (hf : ∀ k < n, step (f^[k] s) (f (f^[k] s))) : Reach init step (f^[n] s) := by
  induction n with
  | zero => exact h
  | succ n ih =>
    rw [Function.iterate_succ_apply']
    exact .next (ih fun k hk => hf k (Nat.lt_succ_of_lt hk)) (hf n (Nat.lt_succ_self n))

end Reach

end Foundations
