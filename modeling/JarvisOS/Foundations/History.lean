import Mathlib.Data.List.Induction
import Mathlib.Tactic.Common

/-!
# Histories of events

`Since P Q` says of a history that an event in `P` has happened and none in `Q` after it. One more
event decides it anew or leaves it as it was (`since_concat`), and of two disjoint kinds of events
it tells which one came last (`since_or_since`, `Since.not_since`).
-/

namespace Foundations

variable {α : Type*} {P Q : α → Prop} {x : α} {xs : List α}

/-- An event in `P` has happened, and none in `Q` after it. -/
def Since (P Q : α → Prop) : List α → Prop
  | [] => False
  | x :: xs => (P x ∧ ∀ y ∈ xs, ¬ Q y) ∨ Since P Q xs

instance Since.decidable [DecidablePred P] [DecidablePred Q] :
    (xs : List α) → Decidable (Since P Q xs)
  | [] => inferInstanceAs (Decidable False)
  | _ :: xs =>
    have := Since.decidable xs
    inferInstanceAs (Decidable (_ ∨ _))

@[simp] theorem not_since_nil : ¬ Since P Q [] := id

/-- **One more event.** -/
@[simp] theorem since_concat : Since P Q (xs ++ [x]) ↔ P x ∨ (¬ Q x ∧ Since P Q xs) := by
  induction xs with
  | nil => simp [Since]
  | cons y ys ih =>
    simp only [List.cons_append, Since, ih, List.forall_mem_append, List.forall_mem_singleton]
    tauto

/-- Fewer events can end it. -/
theorem Since.mono {P' Q' : α → Prop} (h : Since P Q xs) (hP : ∀ x, P x → P' x)
    (hQ : ∀ x, Q' x → Q x) :
    Since P' Q' xs := by
  induction xs with
  | nil => exact h
  | cons x xs ih =>
    rcases h with ⟨hx, hnone⟩ | h
    · exact Or.inl ⟨hP x hx, fun y hy hQ' => hnone y hy (hQ y hQ')⟩
    · exact Or.inr (ih h)

/-- The last of the events in `P` or `Q` is in one of them. -/
theorem since_or_since (h : ∃ x ∈ xs, P x ∨ Q x) : Since P Q xs ∨ Since Q P xs := by
  induction xs using List.reverseRecOn with
  | nil => simp at h
  | append_singleton xs x ih =>
    simp only [since_concat]
    by_cases hP : P x
    · exact Or.inl (Or.inl hP)
    · by_cases hQ : Q x
      · exact Or.inr (Or.inl hQ)
      · obtain ⟨y, hy, hor⟩ := h
        rcases List.mem_append.1 hy with hy | hy
        · rcases ih ⟨y, hy, hor⟩ with hsince | hsince
          · exact Or.inl (Or.inr ⟨hQ, hsince⟩)
          · exact Or.inr (Or.inr ⟨hP, hsince⟩)
        · rw [List.mem_singleton.1 hy] at hor
          exact absurd hor (by tauto)

/-- It is not in both. -/
theorem Since.not_since (h : Since P Q xs) (hdisj : ∀ x, P x → ¬ Q x) : ¬ Since Q P xs := by
  induction xs using List.reverseRecOn with
  | nil => exact absurd h not_since_nil
  | append_singleton xs x ih =>
    rw [since_concat] at h ⊢
    rintro (hQ | ⟨hP, hback⟩)
    · rcases h with hP | ⟨hQ', -⟩
      · exact hdisj x hP hQ
      · exact hQ' hQ
    · rcases h with hP' | ⟨-, h⟩
      · exact hP hP'
      · exact ih h hback

theorem since_exists {ι : Type*} {P : ι → α → Prop} :
    Since (fun x => ∃ i, P i x) Q xs ↔ ∃ i, Since (P i) Q xs := by
  induction xs with
  | nil => simp
  | cons x xs ih => simp only [Since, ih, exists_or, exists_and_right]

theorem Since.exists_mem (h : Since P Q xs) : ∃ x ∈ xs, P x := by
  induction xs with
  | nil => exact absurd h not_since_nil
  | cons x xs ih =>
    rcases h with ⟨hx, -⟩ | h
    · exact ⟨x, List.mem_cons_self, hx⟩
    · obtain ⟨y, hy, hP⟩ := ih h
      exact ⟨y, List.mem_cons_of_mem x hy, hP⟩

end Foundations
