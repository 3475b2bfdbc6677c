import Mathlib.Algebra.BigOperators.Group.List.Basic
import Mathlib.Data.Nat.ModEq

/-!
# Traces and what they count

A run of a labelled transition system with the list of its steps, and the two rules for what is
counted along it. If every step that adds `f` on one side and `g` on the other keeps a potential in
balance, then so does the run (`Trace.balance`); and what every step adds to a quantity the run adds
in sum (`Trace.account`).
-/

namespace Foundations

/-- A step, with its label and its two states. -/
structure Transition (ℓ σ : Type*) where
  label : ℓ
  source : σ
  target : σ

variable {ℓ σ : Type*}

/-- A run with the list of its steps. -/
inductive Trace (step : ℓ → σ → σ → Prop) : List (Transition ℓ σ) → σ → σ → Prop
  | nil (s : σ) : Trace step [] s s
  | snoc {xs : List (Transition ℓ σ)} {s t u : σ} {a : ℓ} (h : Trace step xs s t)
      (hs : step a t u) :
      Trace step (xs ++ [⟨a, t, u⟩]) s u

namespace Trace

variable {step : ℓ → σ → σ → Prop} {xs : List (Transition ℓ σ)} {s t : σ}

/-- **The invariant rule**, for runs whose steps all satisfy `Q`. -/
theorem invariant {I : σ → Prop} {Q : Transition ℓ σ → Prop} (h : Trace step xs s t)
    (hstep : ∀ a s t, I s → step a s t → Q ⟨a, s, t⟩ → I t) (hQ : ∀ x ∈ xs, Q x)
      (hs : I s) : I t := by
  induction h with
  | nil => exact hs
  | snoc _ hst ih =>
    obtain ⟨hxs, hx⟩ := List.forall_mem_append.1 hQ
    exact hstep _ _ _ (ih hxs hs) hst (hx _ (List.mem_singleton_self _))

/-- **The balance rule.** -/
theorem balance {I : σ → Prop} {Q : Transition ℓ σ → Prop} {f g : Transition ℓ σ → ℕ} {φ : σ → ℕ}
    (h : Trace step xs s t)
    (hI : ∀ a s t, I s → step a s t → Q ⟨a, s, t⟩ → I t)
    (hstep : ∀ a s t, I s → step a s t → Q ⟨a, s, t⟩ → f ⟨a, s, t⟩ + φ t = g ⟨a, s, t⟩ + φ s)
    (hQ : ∀ x ∈ xs, Q x) (hs : I s) : (xs.map f).sum + φ t = (xs.map g).sum + φ s := by
  induction h with
  | nil => rfl
  | snoc htr hst ih =>
    obtain ⟨hxs, hx⟩ := List.forall_mem_append.1 hQ
    have hx := hx _ (List.mem_singleton_self _)
    have hlast := hstep _ _ _ (htr.invariant hI hxs hs) hst hx
    have hrest := ih hxs hs
    simp only [List.map_append, List.sum_append, List.map_singleton, List.sum_singleton]
    omega

/-- **The accounting rule**, for a quantity `v` that is kept modulo `n`. -/
theorem account {I : σ → Prop} {Q : Transition ℓ σ → Prop} {f : Transition ℓ σ → ℕ} {v : σ → ℕ}
    {n : ℕ} (h : Trace step xs s t)
    (hI : ∀ a s t, I s → step a s t → Q ⟨a, s, t⟩ → I t)
    (hstep : ∀ a s t, I s → step a s t → Q ⟨a, s, t⟩ → v t ≡ v s + f ⟨a, s, t⟩ [MOD n])
    (hQ : ∀ x ∈ xs, Q x) (hs : I s) : v t ≡ v s + (xs.map f).sum [MOD n] := by
  induction h with
  | nil => exact Nat.ModEq.refl _
  | snoc htr hst ih =>
    obtain ⟨hxs, hx⟩ := List.forall_mem_append.1 hQ
    have hx := hx _ (List.mem_singleton_self _)
    have hlast := hstep _ _ _ (htr.invariant hI hxs hs) hst hx
    rw [List.map_append, List.sum_append, List.map_singleton, List.sum_singleton, ← Nat.add_assoc]
    exact hlast.trans ((ih hxs hs).add_right _)

end Trace

end Foundations
