import Mathlib.Data.List.DropRight
import Mathlib.Tactic.Common

/-!
# Text operations

Operations on texts, as lists over any alphabet: writing a character before every occurrence of
another and taking it out again (`replacePair_insertBefore`), removing a prefix or a suffix that may
be missing, and stripping a character from both ends.
-/

namespace Foundations

namespace Text

variable {α : Type*} [DecidableEq α]

/-- Write `a` before every `b`. -/
def insertBefore (a b : α) (xs : List α) :
    List α := xs.flatMap fun c => if c = b then [a, b] else [c]

/-- Replace every `a` followed by `b` by `b`, from the left. -/
def replacePair (a b : α) : List α → List α
  | [] => []
  | [c] => [c]
  | c :: d :: cs =>
    if c = a ∧ d = b then b :: replacePair a b cs else c :: replacePair a b (d :: cs)

/-- Remove a prefix, if it is there. -/
def removePrefix (p xs : List α) : List α := if p.isPrefixOf xs then xs.drop p.length else xs

/-- Remove a suffix, if it is there. -/
def removeSuffix (p xs : List α) : List α :=
  if p.isSuffixOf xs then xs.take (xs.length - p.length) else xs

/-- Remove `b` from both ends, as often as it is there. -/
def strip (b : α) (xs : List α) : List α :=
  (xs.dropWhile fun c => decide (c = b)).rdropWhile fun c => decide (c = b)

variable {a b c : α} {p xs ys : List α}

/-! ## Inserting and replacing -/

@[simp] theorem insertBefore_nil : insertBefore a b [] = [] := rfl

@[simp] theorem insertBefore_cons_self :
    insertBefore a b (b :: xs) = a :: b :: insertBefore a b xs := by
  simp [insertBefore]

theorem insertBefore_cons_of_ne (h : c ≠ b) :
    insertBefore a b (c :: xs) = c :: insertBefore a b xs := by
  simp [insertBefore, h]

/-- What is written before `b` keeps it from coming first. -/
theorem insertBefore_ne_cons (hab : a ≠ b) : insertBefore a b xs ≠ b :: ys := by
  cases xs with
  | nil => simp
  | cons c xs =>
    by_cases hc : c = b
    · simp [hc, hab]
    · simp [insertBefore_cons_of_ne hc, hc]

theorem replacePair_cons (h : ∀ cs, ¬ (c = a ∧ xs = b :: cs)) :
    replacePair a b (c :: xs) = c :: replacePair a b xs := by
  cases xs with
  | nil => rfl
  | cons d cs =>
    have hcd : ¬ (c = a ∧ d = b) := fun hcd => h cs ⟨hcd.1, by rw [hcd.2]⟩
    simp [replacePair, hcd]

/-- **Replacing takes out** what has been inserted, also where the text holds `a` itself. -/
@[simp] theorem replacePair_insertBefore (hab : a ≠ b) :
    replacePair a b (insertBefore a b xs) = xs := by
  induction xs with
  | nil => rfl
  | cons c xs ih =>
    by_cases hc : c = b
    · simp [hc, replacePair, ih]
    · rw [insertBefore_cons_of_ne hc, replacePair_cons, ih]
      rintro cs ⟨-, hcs⟩
      exact insertBefore_ne_cons hab hcs

/-! ## Removing -/

@[simp] theorem removePrefix_append : removePrefix p (p ++ xs) = xs := by
  simp [removePrefix]

theorem removePrefix_of_not (h : ¬ p <+: xs) : removePrefix p xs = xs := by
  simp [removePrefix, h]

@[simp] theorem removeSuffix_append : removeSuffix p (xs ++ p) = xs := by
  simp [removeSuffix]

/-! ## Stripping -/

@[simp] theorem strip_cons_self : strip b (b :: xs) = strip b xs := by
  simp [strip]

omit [DecidableEq α] in
/-- From the right, nothing is taken beyond a character that stays. -/
theorem rdropWhile_append {q : α → Bool} (h : ∀ hp : p ≠ [], q (p.getLast hp) = false) :
    (p ++ xs).rdropWhile q = p ++ xs.rdropWhile q := by
  induction xs using List.reverseRecOn with
  | nil =>
    simp only [List.append_nil, List.rdropWhile_nil]
    exact List.rdropWhile_eq_self_iff.2 fun hp => by simp [h hp]
  | append_singleton xs x ih =>
    rw [← List.append_assoc]
    cases hx : q x with
    | true => rw [List.rdropWhile_concat_pos q _ x hx, List.rdropWhile_concat_pos q _ x hx, ih]
    | false =>
      rw [List.rdropWhile_concat_neg q _ x (by simp [hx]),
        List.rdropWhile_concat_neg q _ x (by simp [hx]),
        List.append_assoc]

/-- A text without `b` keeps what follows it from being stripped on the left. -/
theorem strip_append (hp : b ∉ p) (hne : p ≠ []) :
    strip b (p ++ xs) = p ++ xs.rdropWhile fun c => decide (c = b) := by
  obtain ⟨c, cs, rfl⟩ := List.exists_cons_of_ne_nil hne
  have hc : c ≠ b := by
    rintro rfl
    exact hp List.mem_cons_self
  unfold strip
  rw [List.cons_append, List.dropWhile_cons_of_neg (by simpa using hc), ← List.cons_append]
  apply rdropWhile_append
  intro hp'
  have hlast : (c :: cs).getLast hp' ≠ b := by
    intro e
    exact hp (e ▸ List.getLast_mem hp')
  simpa using hlast

omit [DecidableEq α] in
/-- From the right, as much stays of a longer text. -/
theorem length_rdropWhile_cons (q : α → Bool) (c : α) (xs : List α) :
    (xs.rdropWhile q).length ≤ ((c :: xs).rdropWhile q).length := by
  induction xs using List.reverseRecOn with
  | nil => simp
  | append_singleton xs x ih =>
    rw [← List.cons_append]
    cases hx : q x with
    | true => rwa [List.rdropWhile_concat_pos q _ x hx, List.rdropWhile_concat_pos q _ x hx]
    | false =>
      rw [List.rdropWhile_concat_neg q _ x (by simp [hx]),
        List.rdropWhile_concat_neg q _ x (by simp [hx])]
      simp

/-- Stripping on the left as well leaves no more. -/
theorem length_strip_le (b : α) (xs : List α) :
    (strip b xs).length ≤ (xs.rdropWhile fun c => decide (c = b)).length := by
  unfold strip
  induction xs with
  | nil => simp
  | cons c xs ih =>
    by_cases hc : c = b
    · rw [List.dropWhile_cons_of_pos (by simpa using hc)]
      exact ih.trans (length_rdropWhile_cons _ c xs)
    · rw [List.dropWhile_cons_of_neg (by simpa using hc)]

end Text

end Foundations
