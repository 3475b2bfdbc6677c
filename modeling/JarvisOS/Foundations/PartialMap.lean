import Mathlib.Data.Finset.Card
import Mathlib.Data.Finset.Range
import Mathlib.Logic.Function.Basic

/-!
# Counting the domain of a partial map

`domSize n f` is the number of indices below `n` at which the partial map `f` is defined. The
lemmas say how updating one entry changes it; they are what a counter kept by hand beside a table
has to follow.
-/

namespace Foundations

open Finset

variable {α : Type*} {n i k : ℕ} {f g : ℕ → Option α}

/-- The number of indices below `n` at which `f` is defined. -/
def domSize (n : ℕ) (f : ℕ → Option α) : ℕ := ((range n).filter fun i => (f i).isSome).card

theorem domSize_congr (h : ∀ i < n, (f i).isSome = (g i).isSome) : domSize n f = domSize n g := by
  unfold domSize
  congr 1
  exact filter_congr fun i hi => by rw [h i (mem_range.1 hi)]

theorem domSize_le (n : ℕ) (f : ℕ → Option α) : domSize n f ≤ n :=
  (card_filter_le _ _).trans (card_range n).le

/-- Defining a new entry. -/
theorem domSize_update_of_none (hi : i < n) (h : f i = none) (a : α) :
    domSize n (Function.update f i (some a)) = domSize n f + 1 := by
  unfold domSize
  have e : ((range n).filter fun j => (Function.update f i (some a) j).isSome) =
      insert i ((range n).filter fun j => (f j).isSome) := by
    ext j
    by_cases hj : j = i
    · subst hj
      simp [hi]
    · simp [hj]
  rw [e, card_insert_of_notMem (by simp [h])]

/-- Overwriting an entry. -/
theorem domSize_update_of_some (h : (f i).isSome) (a : α) :
    domSize n (Function.update f i (some a)) = domSize n f := by
  refine domSize_congr fun j _ => ?_
  by_cases hj : j = i
  · subst hj
    rw [Function.update_self, h]
    rfl
  · rw [Function.update_of_ne hj]

/-- Removing an entry. -/
theorem domSize_update_none (hi : i < n) (h : (f i).isSome) :
    domSize n (Function.update f i none) + 1 = domSize n f := by
  obtain ⟨a, ha⟩ := Option.isSome_iff_exists.1 h
  have := domSize_update_of_none (f := Function.update f i none) hi (Function.update_self ..) a
  rwa [Function.update_idem, ← ha, Function.update_eq_self, eq_comm] at this

/-- A map defined on an initial segment. -/
theorem domSize_of_lt (hk : k ≤ n) (h : ∀ i < n, (f i).isSome ↔ i < k) : domSize n f = k := by
  unfold domSize
  have e : ((range n).filter fun i => (f i).isSome) = range k := by
    ext i
    rw [mem_filter, mem_range, mem_range]
    exact ⟨fun ⟨hi, hf⟩ => (h i hi).1 hf, fun hi => ⟨hi.trans_le hk, (h i (hi.trans_le hk)).2 hi⟩⟩
  rw [e, card_range]

end Foundations
