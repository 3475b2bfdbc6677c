import Mathlib.Logic.Function.Basic
import Mathlib.Order.Nat
import Mathlib.Tactic.Common

/-!
# Terminals that never scroll

A terminal with rows of `W` cells and as many rows as are needed. It wraps as soon as a row is full
(`put`), goes to the next row on request (`newline`), and erases to the left within a row (`erase`).
Read in row-major order (`flat`) a terminal is one long row: writing a cell changes the place `pos`
of the cursor and moves it on by one, whether it wraps or not.
-/

namespace Foundations

/-- What is written, and where the cursor is. -/
structure Terminal (α : Type*) where
  text : ℕ → ℕ → α
  row : ℕ
  col : ℕ

namespace Terminal

variable {α : Type*} {W : ℕ} {t : Terminal α} {a b : α}

/-- An empty terminal. -/
def cleared (b : α) : Terminal α := ⟨fun _ _ => b, 0, 0⟩

/-- Write one cell. -/
def set (t : Terminal α) (r c : ℕ) (a : α) : Terminal α :=
  { t with text := Function.update t.text r (Function.update (t.text r) c a) }

/-- Go to the start of the next row. -/
def newline (t : Terminal α) : Terminal α := { t with row := t.row + 1, col := 0 }

/-- Write a cell at the cursor and move on, to the next row after the last column. -/
def put (W : ℕ) (a : α) (t : Terminal α) : Terminal α :=
  let t := { t.set t.row t.col a with col := t.col + 1 }
  if t.col < W then t else t.newline

/-- Go back one cell and blank it, within the row. -/
def erase (b : α) (t : Terminal α) : Terminal α :=
  if t.col = 0 then t else { t.set t.row (t.col - 1) b with col := t.col - 1 }

/-! ## Row-major order -/

/-- Cell `i` in row-major order. -/
def flat (W : ℕ) (t : Terminal α) (i : ℕ) : α := t.text (i / W) (i % W)

/-- The place of the cursor in row-major order. -/
def pos (W : ℕ) (t : Terminal α) : ℕ := W * t.row + t.col

theorem flat_mul_add {r c : ℕ} (hc : c < W) : t.flat W (W * r + c) = t.text r c := by
  rw [flat, Nat.mul_add_div (by omega), Nat.div_eq_of_lt hc, Nat.mul_add_mod, Nat.mod_eq_of_lt hc,
    Nat.add_zero]

/-- Writing a cell changes it and no other. -/
theorem flat_set {r c : ℕ} (hc : c < W) (i : ℕ) :
    (t.set r c a).flat W i = if i = W * r + c then a else t.flat W i := by
  by_cases hi : i = W * r + c
  · rw [if_pos hi, hi, flat_mul_add hc]
    simp [set]
  · rw [if_neg hi]
    unfold flat set
    by_cases hr : i / W = r
    · have hne : i % W ≠ c := by
        rintro rfl
        exact hi (by rw [← hr, Nat.div_add_mod])
      simp only [hr, Function.update_self, Function.update_of_ne hne]
    · simp only [Function.update_of_ne hr]

theorem row_put : (t.put W a).row = if t.col + 1 < W then t.row else t.row + 1 := by
  unfold put newline set
  simp only
  split_ifs <;> rfl

theorem col_put : (t.put W a).col = if t.col + 1 < W then t.col + 1 else 0 := by
  unfold put newline
  simp only
  split_ifs <;> rfl

theorem col_put_lt (hc : t.col < W) : (t.put W a).col < W := by
  rw [col_put]
  split_ifs with h
  · exact h
  · exact Nat.zero_lt_of_lt hc

theorem flat_put (hc : t.col < W) (i : ℕ) :
    (t.put W a).flat W i = if i = t.pos W then a else t.flat W i := by
  rw [pos, ← flat_set hc]
  unfold put newline
  simp only
  split_ifs <;> rfl

/-- **Writing moves the cursor on by one cell.** -/
theorem pos_put (hc : t.col < W) : (t.put W a).pos W = t.pos W + 1 := by
  rw [pos, row_put, col_put, pos]
  split_ifs with h
  · exact (Nat.add_assoc _ _ _).symm
  · have hlast : t.col + 1 = W := by omega
    rw [Nat.mul_add, Nat.mul_one, Nat.add_zero, Nat.add_assoc, hlast]

theorem pos_le_newline (hc : t.col < W) : t.pos W ≤ t.newline.pos W := by
  unfold pos newline
  simp only
  rw [Nat.mul_add, Nat.mul_one, Nat.add_zero]
  omega

theorem col_erase (hc : t.col < W) : (t.erase b).col < W := by
  unfold erase
  split_ifs
  · exact hc
  · exact (Nat.sub_le _ _).trans_lt hc

/-- At the start of a row there is nothing to erase. -/
theorem erase_of_col_zero (h : t.col = 0) : t.erase b = t := if_pos h

theorem row_erase : (t.erase b).row = t.row := by
  unfold erase set
  split_ifs <;> rfl

theorem flat_erase (hc : t.col < W) (h0 : t.col ≠ 0) (i : ℕ) :
    (t.erase b).flat W i = if i = t.pos W - 1 then b else t.flat W i := by
  have hpos : t.pos W - 1 = W * t.row + (t.col - 1) := by
    rw [pos]
    omega
  rw [hpos, ← flat_set (by omega), erase, if_neg h0]
  rfl

theorem pos_erase (h0 : t.col ≠ 0) : (t.erase b).pos W + 1 = t.pos W := by
  rw [erase, if_neg h0]
  unfold pos set
  simp only
  omega

/-! ## What lies ahead of the cursor -/

/-- Everything from the cursor on is blank. -/
def BlankAhead (W : ℕ) (b : α) (t : Terminal α) : Prop := ∀ i, t.pos W ≤ i → t.flat W i = b

namespace BlankAhead

theorem cleared : (Terminal.cleared b).BlankAhead W b := fun _ _ => rfl

theorem newline (h : t.BlankAhead W b) (hc : t.col < W) : t.newline.BlankAhead W b :=
  fun i hi => h i ((pos_le_newline hc).trans hi)

theorem put (h : t.BlankAhead W b) (hc : t.col < W) (a : α) : (t.put W a).BlankAhead W b := by
  intro i hi
  rw [pos_put hc] at hi
  rw [flat_put hc, if_neg (by omega)]
  exact h i (by omega)

theorem erase (h : t.BlankAhead W b) (hc : t.col < W) : (t.erase b).BlankAhead W b := by
  by_cases h0 : t.col = 0
  · rw [erase_of_col_zero h0]
    exact h
  · intro i hi
    have hpos := pos_erase (W := W) (b := b) h0
    rw [flat_erase hc h0]
    split_ifs with hlast
    · rfl
    · exact h i (by omega)

end BlankAhead

end Terminal

end Foundations
