import Mathlib.Tactic.Common

/-!
# Counting steps against a rank

The steps of a labelled transition system have costs. `CountedRun` is a run with its total cost,
all of whose states but the last satisfy `P`. When a step that stays in `P` takes at least its cost
off a rank, the cost of a run that waits in `P` is bounded by the rank it starts with
(`CountedRun.le_rank`).
-/

namespace Foundations

variable {ℓ σ : Type*}

/-- A run of total cost `n` from one state to another, all in `P` but for the last state. -/
inductive CountedRun (step : ℓ → σ → σ → Prop) (cost : ℓ → ℕ) (P : σ → Prop) : ℕ → σ → σ → Prop
  | refl (s : σ) : CountedRun step cost P 0 s s
  | tail {n : ℕ} {a : ℓ} {s t u : σ} (hr : CountedRun step cost P n s t) (hP : P t)
      (hs : step a t u) : CountedRun step cost P (n + cost a) s u

/-- **The ranking rule.** A run costs no more than the rank it starts with, and while it waits the
rank that is left pays for the rest. -/
theorem CountedRun.le_rank {step : ℓ → σ → σ → Prop} {cost : ℓ → ℕ} {P I : σ → Prop} (rank : σ → ℕ)
    (hstep : ∀ a s t, I s → P s → step a s t →
      I t ∧ ((P t ∧ rank t + cost a ≤ rank s) ∨ (¬ P t ∧ cost a ≤ rank s)))
    {n : ℕ} {s t : σ} (hr : CountedRun step cost P n s t) (hI : I s) (hP : P s) :
    I t ∧ ((P t ∧ n + rank t ≤ rank s) ∨ (¬ P t ∧ n ≤ rank s)) := by
  induction hr with
  | refl s => exact ⟨hI, Or.inl ⟨hP, Nat.le_of_eq (Nat.zero_add _)⟩⟩
  | tail hr hPt hs ih =>
    obtain ⟨hIt, ⟨-, hle⟩ | ⟨hnot, -⟩⟩ := ih hI hP
    · obtain ⟨hIu, ⟨hPu, hu⟩ | ⟨hnot, hu⟩⟩ := hstep _ _ _ hIt hPt hs
      · exact ⟨hIu, Or.inl ⟨hPu, by omega⟩⟩
      · exact ⟨hIu, Or.inr ⟨hnot, by omega⟩⟩
    · exact absurd hPt hnot

end Foundations
