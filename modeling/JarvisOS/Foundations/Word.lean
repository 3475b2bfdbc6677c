import Mathlib.Data.Nat.Bitwise
import Mathlib.Tactic.Common

/-!
# 32-bit machine words as natural numbers

Unsigned 32-bit values are natural numbers, and every operation that can leave the range is
wrapped explicitly with `u32`. The bit operations a kernel needs on such values are masking
with a complement (`and_lnot32`, the rounding idiom `x & ~(2^k - 1)`) and inserting a field
below an aligned one (`or_low`); both are turned into arithmetic, which `omega` then handles.
-/

namespace Foundations

/-- Wrap a natural number to 32 bits. -/
def u32 (n : ℕ) : ℕ := n % 2 ^ 32

/-- 32-bit subtraction. -/
def sub32 (a b : ℕ) : ℕ := u32 (a + (2 ^ 32 - u32 b))

/-- 32-bit complement. -/
def lnot32 (m : ℕ) : ℕ := 2 ^ 32 - 1 - u32 m

theorem u32_lt (n : ℕ) : u32 n < 2 ^ 32 := Nat.mod_lt _ (by decide)

theorem u32_of_lt {n : ℕ} (h : n < 2 ^ 32) : u32 n = n := Nat.mod_eq_of_lt h

@[simp] theorem u32_u32 (n : ℕ) : u32 (u32 n) = u32 n := u32_of_lt (u32_lt n)

theorem sub32_of_le {a b : ℕ} (h : b ≤ a) (ha : a < 2 ^ 32) : sub32 a b = a - b := by
  unfold sub32 u32
  omega

/-- One step down and one step up of a wrapping counter cancel. -/
theorem sub32_u32_succ {n : ℕ} (h : n < 2 ^ 32) : sub32 (u32 (n + 1)) 1 = n := by
  unfold sub32 u32
  omega

/-- The bits of a run of ones above position `k`. -/
theorem testBit_lnot32 {k : ℕ} (hk : k ≤ 32) (i : ℕ) :
    (lnot32 (2 ^ k - 1)).testBit i = (decide (k ≤ i) && decide (i < 32)) := by
  have hlt : 2 ^ k - 1 < 2 ^ 32 := by
    have := Nat.pow_le_pow_right (n := 2) (by decide) hk
    omega
  rw [lnot32, u32_of_lt hlt, show 2 ^ 32 - 1 - (2 ^ k - 1) = 2 ^ 32 - ((2 ^ k - 1) + 1) by omega,
    Nat.testBit_two_pow_sub_succ hlt, Nat.testBit_two_pow_sub_one]
  by_cases h : k ≤ i <;> by_cases h' : i < 32 <;> simp [h, h', Nat.not_lt.2, Nat.not_le.1]

/-- **Rounding down with a mask**: `x & ~(2^k - 1)` clears the low `k` bits. -/
theorem and_lnot32 {k x : ℕ} (hk : k ≤ 32) (hx : x < 2 ^ 32) :
    x &&& lnot32 (2 ^ k - 1) = x / 2 ^ k * 2 ^ k := by
  apply Nat.eq_of_testBit_eq
  intro i
  rw [Nat.testBit_and, testBit_lnot32 hk, Nat.mul_comm, Nat.testBit_two_pow_mul,
    Nat.testBit_div_two_pow]
  by_cases h : k ≤ i
  · by_cases h' : i < 32
    · simp [h, h', Nat.sub_add_cancel h]
    · have : x.testBit i = false :=
        Nat.testBit_lt_two_pow (hx.trans_le (Nat.pow_le_pow_right (by decide) (by omega)))
      simp [h, h', this, Nat.sub_add_cancel h]
  · simp [h]

/-- A value below `2^k` fits under a multiple of `2^k`: `or` is addition there. -/
theorem or_low {k y : ℕ} (x : ℕ) (hy : y < 2 ^ k) : x * 2 ^ k ||| y = x * 2 ^ k + y := by
  rw [Nat.mul_comm, Nat.two_pow_add_eq_or_of_lt hy]

/-- Reading the low field back. -/
theorem and_mask_eq_mod (x k : ℕ) : x &&& (2 ^ k - 1) = x % 2 ^ k :=
  Nat.and_two_pow_sub_one_eq_mod x k

end Foundations
