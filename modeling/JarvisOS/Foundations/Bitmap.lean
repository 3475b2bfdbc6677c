import Mathlib.Data.Nat.Count
import Mathlib.Logic.Function.Basic
import Mathlib.Order.Bounds.Defs
import Mathlib.Tactic.Common

/-!
# Bitmaps in 32-bit words

A bitmap is a sequence of 32-bit words, bit `i` being bit `i % 32` of word `i / 32`. Setting and
clearing a bit act on that bit alone (`get_setBit`, `get_clearBit`). The first clear bit can be
looked for bit by bit (`firstClear`) or word by word, passing over full words without looking at
their bits (`firstClearByWords`); the two agree (`firstClearByWords_eq`), and what they find is the
least clear index (`firstClear_eq_some`). `count` is the number of bits set among the first ones.
-/

namespace Foundations

/-- Words indexed from `0`. -/
abbrev Bitmap := ℕ → BitVec 32

namespace Bitmap

/-- Bit `i`. -/
def get (b : Bitmap) (i : ℕ) : Bool := (b (i / 32)).getLsbD (i % 32)

/-- Set bit `i`. -/
def setBit (b : Bitmap) (i : ℕ) : Bitmap :=
  Function.update b (i / 32) (b (i / 32) ||| 1#32 <<< (i % 32))

/-- Clear bit `i`. -/
def clearBit (b : Bitmap) (i : ℕ) : Bitmap :=
  Function.update b (i / 32) (b (i / 32) &&& ~~~(1#32 <<< (i % 32)))

theorem getLsbD_one_shl {j k : ℕ} (hk : k < 32) :
    (1#32 <<< j).getLsbD k = decide (k = j) := by
  rw [BitVec.getLsbD_shiftLeft, BitVec.getLsbD_one]
  by_cases h : k < j
  · simp [h, Nat.ne_of_lt h]
  · by_cases h' : k = j
    · simp [h', show j < 32 by omega]
    · simp [hk, h, h', show k - j ≠ 0 by omega]

theorem get_setBit (b : Bitmap) (i j : ℕ) : (b.setBit i).get j = (b.get j || decide (j = i)) := by
  unfold get setBit
  have hj : j % 32 < 32 := Nat.mod_lt _ (by decide)
  by_cases hw : j / 32 = i / 32
  · rw [hw, Function.update_self, BitVec.getLsbD_or, getLsbD_one_shl hj]
    congr 1
    exact decide_eq_decide.2 ⟨fun h => by omega, fun h => by rw [h]⟩
  · have hne : j ≠ i := fun h => hw (by rw [h])
    rw [Function.update_of_ne hw]
    simp [hne]

theorem get_clearBit (b : Bitmap) (i j : ℕ) :
    (b.clearBit i).get j = (b.get j && !decide (j = i)) := by
  unfold get clearBit
  have hj : j % 32 < 32 := Nat.mod_lt _ (by decide)
  by_cases hw : j / 32 = i / 32
  · rw [hw, Function.update_self, BitVec.getLsbD_and, BitVec.getLsbD_not, getLsbD_one_shl hj]
    have : decide (j % 32 = i % 32) = decide (j = i) :=
      decide_eq_decide.2 ⟨fun h => by omega, fun h => by rw [h]⟩
    simp [hj, this]
  · have hne : j ≠ i := fun h => hw (by rw [h])
    rw [Function.update_of_ne hw]
    simp [hne]

/-- Setting a clear bit and clearing it again restores the bitmap, word for word. -/
theorem clearBit_setBit {b : Bitmap} {i : ℕ} (h : b.get i = false) :
    (b.setBit i).clearBit i = b := by
  unfold clearBit setBit
  rw [Function.update_self, Function.update_idem]
  refine Function.update_eq_self_iff.2 (BitVec.eq_of_getLsbD_eq fun k hk => ?_)
  rw [BitVec.getLsbD_and, BitVec.getLsbD_or, BitVec.getLsbD_not, getLsbD_one_shl hk]
  by_cases hki : k = i % 32
  · subst hki
    simpa [get] using h.symm
  · simp [hk, hki]

/-! ## Counting -/

/-- How many of the first `n` bits are set. -/
def count (b : Bitmap) (n : ℕ) : ℕ := Nat.count (fun i => b.get i = true) n

/-- The first `n` bits are set or clear. -/
theorem count_add_count_clear (b : Bitmap) (n : ℕ) :
    b.count n + Nat.count (fun i => b.get i = false) n = n := by
  induction n with
  | zero => simp [count]
  | succ n ih =>
    unfold count at ih ⊢
    rw [Nat.count_succ, Nat.count_succ]
    cases h : b.get n <;> simp <;> omega

theorem count_setBit {b : Bitmap} {i n : ℕ} (hi : i < n) (h : b.get i = false) :
    (b.setBit i).count n = b.count n + 1 := by
  have hbits : {j ∈ Finset.range n | (b.setBit i).get j = true} =
      insert i {j ∈ Finset.range n | b.get j = true} := by
    ext j
    rw [Finset.mem_insert, Finset.mem_filter, Finset.mem_filter, Finset.mem_range, get_setBit,
      Bool.or_eq_true, decide_eq_true_iff]
    constructor
    · rintro ⟨hj, hbit | rfl⟩
      · exact Or.inr ⟨hj, hbit⟩
      · exact Or.inl rfl
    · rintro (rfl | ⟨hj, hbit⟩)
      · exact ⟨hi, Or.inr rfl⟩
      · exact ⟨hj, Or.inl hbit⟩
  rw [count, count, Nat.count_eq_card_filter_range, Nat.count_eq_card_filter_range, hbits,
    Finset.card_insert_of_notMem (by simp [h])]

theorem count_clearBit {b : Bitmap} {i n : ℕ} (hi : i < n) (h : b.get i = true) :
    (b.clearBit i).count n + 1 = b.count n := by
  have hclear : (b.clearBit i).get i = false := by simp [get_clearBit]
  have hsame : ∀ j, ((b.clearBit i).setBit i).get j = b.get j := by
    intro j
    rw [get_setBit, get_clearBit]
    by_cases hj : j = i
    · rw [hj, h]
      simp
    · simp [hj]
  rw [← count_setBit hi hclear]
  simp only [count, hsame]

/-! ## Taking the least -/

section Least

variable {P Q : ℕ → Prop} [DecidablePred P] [DecidablePred Q] {i : ℕ}

/-- **Taking the least index** of those with `P` leaves one less below every bound that lies above
it. -/
theorem count_of_isLeast (hi : IsLeast {j | P j} i) (hQ : ∀ j, Q j ↔ P j ∧ j ≠ i) (n : ℕ) :
    Nat.count P n = Nat.count Q n + if i < n then 1 else 0 := by
  induction n with
  | zero => simp
  | succ n ih =>
    rw [Nat.count_succ, Nat.count_succ, ih]
    rcases Nat.lt_trichotomy i n with hlt | rfl | hgt
    · have hsame : Q n ↔ P n := (hQ n).trans (and_iff_left hlt.ne')
      simp only [hsame, if_pos hlt, if_pos (Nat.lt_succ_of_lt hlt)]
      omega
    · have hP : P i := hi.1
      have hnot : ¬ Q i := fun h => ((hQ i).1 h).2 rfl
      simp [hP, hnot]
    · have hnot : ¬ P n := fun h => absurd (hi.2 h) (not_le.2 hgt)
      have hnot' : ¬ Q n := fun h => hnot ((hQ n).1 h).1
      rw [if_neg hnot, if_neg hnot', if_neg (by omega), if_neg (by omega)]

/-- There is one below a bound if the least is. -/
theorem count_pos_of_isLeast (hi : IsLeast {j | P j} i) (n : ℕ) : 0 < Nat.count P n ↔ i < n := by
  rw [Nat.pos_iff_ne_zero, Ne, Nat.count_iff_forall_not]
  constructor
  · intro h
    by_contra hle
    exact h fun j hj hP => hle ((hi.2 hP).trans_lt hj)
  · exact fun h hno => hno i h hi.1

end Least

/-! ## The first clear bit -/

/-- Scan `n` bits one by one. -/
def firstClear (b : Bitmap) (n : ℕ) : Option ℕ := (List.range n).find? fun i => !b.get i

/-- The first clear bit of one word. -/
def firstClearInWord (v : BitVec 32) : Option ℕ := (List.range 32).find? fun j => !v.getLsbD j

/-- Scan `n` words, skipping those with every bit set. -/
def firstClearByWords (b : Bitmap) (n : ℕ) : Option ℕ :=
  (List.range n).findSome? fun w =>
    if b w = 0xFFFFFFFF#32 then none else (firstClearInWord (b w)).map (w * 32 + ·)

theorem firstClearInWord_full : firstClearInWord 0xFFFFFFFF#32 = none := by
  rw [firstClearInWord, List.find?_range_eq_none]
  intro j hj
  rw [show (0xFFFFFFFF#32) = BitVec.allOnes 32 by decide, BitVec.getLsbD_allOnes]
  simp [hj]

theorem find?_congr_of_mem {α : Type*} {p q : α → Bool} {l : List α} (h : ∀ x ∈ l, p x = q x) :
    l.find? p = l.find? q := by
  induction l with
  | nil => rfl
  | cons x l ih =>
    rw [List.find?_cons, List.find?_cons, h x List.mem_cons_self,
      ih fun y hy => h y (List.mem_cons_of_mem x hy)]

theorem findSome?_congr_of_mem {α β : Type*} {f g : α → Option β} {l : List α}
    (h : ∀ x ∈ l, f x = g x) : l.findSome? f = l.findSome? g := by
  induction l with
  | nil => rfl
  | cons x l ih =>
    rw [List.findSome?_cons, List.findSome?_cons, h x List.mem_cons_self,
      ih fun y hy => h y (List.mem_cons_of_mem x hy)]

/-- The bits of word `n`, looked for by their index in the bitmap. -/
theorem find?_word (b : Bitmap) (n : ℕ) :
    (List.range 32).find? ((fun i => !b.get i) ∘ (n * 32 + ·)) = firstClearInWord (b n) := by
  refine find?_congr_of_mem fun j hj => ?_
  have hj' : j < 32 := List.mem_range.1 hj
  simp only [Function.comp_apply, get, show (n * 32 + j) / 32 = n by omega,
    show (n * 32 + j) % 32 = j by omega]

/-- **Skipping full words does not change what is found.** -/
theorem firstClearByWords_eq (b : Bitmap) (n : ℕ) :
    b.firstClearByWords n = b.firstClear (n * 32) := by
  induction n with
  | zero => rfl
  | succ n ih =>
    unfold firstClearByWords firstClear at ih ⊢
    rw [List.range_succ, List.findSome?_append, ih, Nat.succ_mul, List.range_add,
      List.find?_append, List.find?_map, find?_word]
    congr 1
    by_cases hfull : b n = 0xFFFFFFFF#32
    · simp [hfull, firstClearInWord_full]
    · simp [hfull]

theorem firstClear_eq_some {b : Bitmap} {n i : ℕ} :
    b.firstClear n = some i ↔ IsLeast {j | j < n ∧ b.get j = false} i := by
  unfold firstClear
  rw [List.find?_range_eq_some]
  constructor
  · rintro ⟨h1, h2, h3⟩
    refine ⟨⟨List.mem_range.1 h2, by simpa using h1⟩, fun j ⟨hj, hb⟩ => ?_⟩
    by_contra hlt
    have := h3 j (by omega)
    simp [hb] at this
  · rintro ⟨⟨h1, h2⟩, h3⟩
    refine ⟨by simp [h2], List.mem_range.2 h1, fun j hj => ?_⟩
    have hb : ¬ b.get j = false := fun hb => by
      have := h3 ⟨Nat.lt_trans hj h1, hb⟩
      omega
    simpa using hb

theorem firstClear_eq_none {b : Bitmap} {n : ℕ} :
    b.firstClear n = none ↔ ∀ j < n, b.get j = true := by
  unfold firstClear
  rw [List.find?_range_eq_none]
  simp

end Bitmap

end Foundations
