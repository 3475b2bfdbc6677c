import Mathlib.Logic.Function.Basic
import Mathlib.Tactic.Common
import Mathlib.Data.Nat.Basic

/-!
# Ring buffers

A ring of `N` slots, filled at its head and emptied at its tail by one producer and one consumer.
One slot always stays empty, so that equal indices mean an empty ring. `Represents` says which queue
a ring holds; pushing, reading and advancing act on the queue as they should, whatever the indices
have wrapped around (`Represents.push`, `Represents.peek`, `Represents.advance`).
-/

namespace Foundations

variable {α : Type*}

/-- The slots, the next slot to fill and the next slot to empty. -/
structure RingBuffer (α : Type*) where
  slots : ℕ → α
  head : ℕ
  tail : ℕ

namespace RingBuffer

variable (N : ℕ)

/-- Fill the slot at the head, unless the ring is full. -/
def push (c : α) (r : RingBuffer α) : RingBuffer α :=
  if (r.head + 1) % N = r.tail then r
  else { r with slots := Function.update r.slots r.head c, head := (r.head + 1) % N }

/-- The slot at the tail. -/
def peek (r : RingBuffer α) : α := r.slots r.tail

/-- Empty the slot at the tail. -/
def advance (r : RingBuffer α) : RingBuffer α := { r with tail := (r.tail + 1) % N }

/-- The queue that the ring holds, the oldest item first. -/
structure Represents (r : RingBuffer α) (items : List α) : Prop where
  tail_lt : r.tail < N
  short : items.length < N
  head_eq : r.head = (r.tail + items.length) % N
  slot : ∀ i (h : i < items.length), r.slots ((r.tail + i) % N) = items[i]

/-- An index that has gone around at most once. -/
theorem add_mod_eq {N t k : ℕ} (ht : t < N) (hk : k ≤ N) :
    (t + k) % N = if t + k < N then t + k else t + k - N := by
  split_ifs with h
  · exact Nat.mod_eq_of_lt h
  · rw [Nat.mod_eq_sub_mod (not_lt.1 h), Nat.mod_eq_of_lt (by omega)]

/-- Slots fewer than a round apart are different. -/
theorem add_mod_ne {N t i j : ℕ} (ht : t < N) (hij : i < j) (hj : j < N) :
    (t + i) % N ≠ (t + j) % N := by
  rw [add_mod_eq ht (by omega), add_mod_eq ht (Nat.le_of_lt hj)]
  split_ifs <;> omega

namespace Represents

variable {N} {r : RingBuffer α} {items : List α} {c : α}

theorem empty (hN : 0 < N) (slots : ℕ → α) : Represents N ⟨slots, 0, 0⟩ [] where
  tail_lt := hN
  short := hN
  head_eq := (Nat.zero_mod N).symm
  slot _ h := absurd h (Nat.not_lt_zero _)

/-- **Equal indices** mean an empty ring. -/
theorem tail_eq_head_iff (h : Represents N r items) : r.tail = r.head ↔ items = [] := by
  rw [h.head_eq, add_mod_eq h.tail_lt (Nat.le_of_lt h.short), ← List.length_eq_zero_iff]
  have := h.short
  have := h.tail_lt
  split_ifs <;> omega

theorem head_lt (h : Represents N r items) : r.head < N := by
  rw [h.head_eq]
  exact Nat.mod_lt _ (Nat.zero_lt_of_lt h.tail_lt)

/-- The slot after the head is the tail when one slot is left. -/
theorem next_eq_tail_iff (h : Represents N r items) :
    (r.head + 1) % N = r.tail ↔ items.length + 1 = N := by
  have ht := h.tail_lt
  have hs := h.short
  rw [h.head_eq, Nat.mod_add_mod, Nat.add_assoc, add_mod_eq ht (by omega)]
  split_ifs <;> omega

/-- **Pushing** appends to the queue, or leaves it when the ring is full. -/
theorem push (h : Represents N r items) (c : α) :
    Represents N (push N c r) (if items.length + 1 < N then items ++ [c] else items) := by
  have hs := h.short
  unfold RingBuffer.push
  by_cases hfull : items.length + 1 = N
  · rw [if_pos (h.next_eq_tail_iff.2 hfull), if_neg (by omega)]
    exact h
  · rw [if_neg (mt h.next_eq_tail_iff.1 hfull), if_pos (by omega)]
    refine ⟨h.tail_lt, by rw [List.length_append, List.length_singleton]; omega, ?_, ?_⟩
    · simp only [List.length_append, List.length_singleton]
      rw [h.head_eq, Nat.mod_add_mod, Nat.add_assoc]
    · intro i hi
      rw [List.length_append, List.length_singleton] at hi
      simp only [h.head_eq]
      by_cases hlast : i = items.length
      · subst hlast
        simp
      · have hlt : i < items.length := by omega
        rw [Function.update_of_ne (add_mod_ne h.tail_lt hlt hs), h.slot i hlt,
          List.getElem_append_left hlt]

/-- **Reading** gives the oldest item. -/
theorem peek (h : Represents N r (c :: items)) : r.peek = c := by
  have hslot := h.slot 0 (Nat.succ_pos _)
  rwa [Nat.add_zero, Nat.mod_eq_of_lt h.tail_lt] at hslot

/-- **Advancing** drops the oldest item. -/
theorem advance (h : Represents N r (c :: items)) : Represents N (advance N r) items where
  tail_lt := Nat.mod_lt _ (Nat.zero_lt_of_lt h.tail_lt)
  short := Nat.lt_of_succ_lt h.short
  head_eq := by
    simp only [RingBuffer.advance]
    rw [h.head_eq, Nat.mod_add_mod, List.length_cons, Nat.add_assoc, Nat.add_comm 1]
  slot i hi := by
    simp only [RingBuffer.advance]
    rw [Nat.mod_add_mod, Nat.add_assoc, Nat.add_comm 1, h.slot (i + 1) (Nat.succ_lt_succ hi),
      List.getElem_cons_succ]

end Represents

end RingBuffer

end Foundations
