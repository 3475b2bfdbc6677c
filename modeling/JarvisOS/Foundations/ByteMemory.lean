import JarvisOS.Foundations.Word
import Mathlib.Tactic.IntervalCases

/-!
# Little-endian byte memory

A memory assigns a byte to every address. A 32-bit word occupies four consecutive bytes, low
byte first, at any alignment. Reads after writes are decided by two facts: a word reads back
modulo `2^32` at the address it was written to (`read32_write32_same`), and a write changes only
its four bytes (`write32_apply_of_disjoint`, `read32_write32_of_disjoint`).
-/

namespace Foundations

/-- A byte for every address. -/
def Mem := ℕ → UInt8

namespace Mem

/-- The 32-bit word at `a`. -/
def read32 (m : Mem) (a : ℕ) : ℕ :=
  (m a).toNat + 2 ^ 8 * (m (a + 1)).toNat + 2 ^ 16 * (m (a + 2)).toNat + 2 ^ 24 * (m (a + 3)).toNat

/-- The 64-bit word at `a`. -/
def read64 (m : Mem) (a : ℕ) : ℕ := m.read32 a + 2 ^ 32 * m.read32 (a + 4)

/-- Store one byte. -/
def write8 (m : Mem) (a : ℕ) (v : UInt8) : Mem := fun x => if x = a then v else m x

/-- Store the 32-bit word `v` at `a`. -/
def write32 (m : Mem) (a v : ℕ) : Mem := fun x =>
  if x = a then UInt8.ofNat v
  else if x = a + 1 then UInt8.ofNat (v / 2 ^ 8)
  else if x = a + 2 then UInt8.ofNat (v / 2 ^ 16)
  else if x = a + 3 then UInt8.ofNat (v / 2 ^ 24)
  else m x

/-- Store `count` copies of a byte from `a` on. -/
def memset (m : Mem) (a : ℕ) (v : UInt8) (count : ℕ) : Mem := fun x =>
  if a ≤ x ∧ x < a + count then v else m x

theorem toNat_lt (m : Mem) (a : ℕ) : (m a).toNat < 2 ^ 8 := UInt8.toNat_lt _

theorem read32_lt (m : Mem) (a : ℕ) : m.read32 a < 2 ^ 32 := by
  have h0 := m.toNat_lt a
  have h1 := m.toNat_lt (a + 1)
  have h2 := m.toNat_lt (a + 2)
  have h3 := m.toNat_lt (a + 3)
  unfold read32
  omega

/-- A word depends on its four bytes only. -/
theorem read32_congr {m m' : Mem} {a : ℕ} (h : ∀ x, a ≤ x → x < a + 4 → m' x = m x) :
    m'.read32 a = m.read32 a := by
  unfold read32
  rw [h a (by omega) (by omega), h (a + 1) (by omega) (by omega), h (a + 2) (by omega) (by omega),
    h (a + 3) (by omega) (by omega)]

theorem read64_congr {m m' : Mem} {a : ℕ} (h : ∀ x, a ≤ x → x < a + 8 → m' x = m x) :
    m'.read64 a = m.read64 a := by
  unfold read64
  rw [read32_congr fun x hlo hhi => h x hlo (by omega),
    read32_congr fun x hlo hhi => h x (by omega) (by omega)]

/-- A word determines its bytes. -/
theorem byte_of_read32 (m : Mem) {a i : ℕ} (hi : i < 4) :
    (m (a + i)).toNat = m.read32 a / 2 ^ (8 * i) % 2 ^ 8 := by
  have h0 := m.toNat_lt a
  have h1 := m.toNat_lt (a + 1)
  have h2 := m.toNat_lt (a + 2)
  have h3 := m.toNat_lt (a + 3)
  unfold read32
  interval_cases i
  all_goals
    simp only [Nat.add_zero, Nat.mul_zero, Nat.pow_zero, Nat.div_one, Nat.mul_one, Nat.reduceMul]
    omega

theorem write32_apply_of_disjoint (m : Mem) {a x : ℕ} (v : ℕ) (h : x < a ∨ a + 4 ≤ x) :
    m.write32 a v x = m x := by
  unfold write32
  rw [if_neg (by omega), if_neg (by omega), if_neg (by omega), if_neg (by omega)]

@[simp] theorem read32_write32_same (m : Mem) (a v : ℕ) : (m.write32 a v).read32 a = u32 v := by
  unfold read32 write32 u32
  simp only [if_true, if_neg (show a + 1 ≠ a by omega), if_neg (show a + 2 ≠ a by omega),
    if_neg (show a + 3 ≠ a by omega), if_neg (show a + 2 ≠ a + 1 by omega),
    if_neg (show a + 3 ≠ a + 1 by omega), if_neg (show a + 3 ≠ a + 2 by omega),
    UInt8.toNat_ofNat']
  omega

theorem read32_write32_of_disjoint (m : Mem) {a b : ℕ} (v : ℕ) (h : b + 4 ≤ a ∨ a + 4 ≤ b) :
    (m.write32 a v).read32 b = m.read32 b :=
  read32_congr fun _ _ _ => write32_apply_of_disjoint m v (by omega)

/-- Store words, each at its distance from `a`. -/
def writeWords (m : Mem) (a : ℕ) (ws : List (ℕ × ℕ)) : Mem :=
  ws.foldl (fun m w => m.write32 (a + w.1) w.2) m

theorem writeWords_apply_of_disjoint (m : Mem) {a x : ℕ} {ws : List (ℕ × ℕ)}
    (h : ∀ w ∈ ws, x < a + w.1 ∨ a + w.1 + 4 ≤ x) : m.writeWords a ws x = m x := by
  induction ws generalizing m with
  | nil => rfl
  | cons w ws ih =>
    rw [writeWords, List.foldl_cons, ← writeWords,
      ih _ fun v hv => h v (List.mem_cons_of_mem w hv),
      write32_apply_of_disjoint _ _ (h w List.mem_cons_self)]

/-- Words stored in ascending order are all there. -/
theorem read32_writeWords (m : Mem) {a : ℕ} {ws : List (ℕ × ℕ)}
    (hws : ws.Pairwise fun v w => v.1 + 4 ≤ w.1) {w : ℕ × ℕ} (hw : w ∈ ws) :
    (m.writeWords a ws).read32 (a + w.1) = u32 w.2 := by
  induction ws generalizing m with
  | nil => exact absurd hw List.not_mem_nil
  | cons v ws ih =>
    obtain ⟨hv, hws⟩ := List.pairwise_cons.1 hws
    rcases List.mem_cons.1 hw with rfl | hw
    · refine (read32_congr fun x h1 h2 => ?_).trans (read32_write32_same m (a + w.1) w.2)
      refine writeWords_apply_of_disjoint (m.write32 (a + w.1) w.2) fun v' hv' => Or.inl ?_
      have := hv v' hv'
      omega
    · exact ih (m.write32 (a + v.1) v.2) hws hw

/-- Storing the word that is there already changes nothing. -/
theorem write32_self {m : Mem} {a v : ℕ} (h : m.read32 a = u32 v) : m.write32 a v = m := by
  funext y
  by_cases hy : y < a ∨ a + 4 ≤ y
  · exact write32_apply_of_disjoint m v hy
  · obtain ⟨i, rfl⟩ := Nat.exists_eq_add_of_le (show a ≤ y by omega)
    apply UInt8.toNat_inj.1
    rw [byte_of_read32 _ (by omega), byte_of_read32 m (by omega), read32_write32_same, h]

theorem memset_apply_of_disjoint (m : Mem) {a x : ℕ} (v : UInt8) {count : ℕ}
    (h : x < a ∨ a + count ≤ x) : m.memset a v count x = m x :=
  if_neg (by omega)

theorem read32_memset_of_disjoint (m : Mem) {a b : ℕ} (v : UInt8) {count : ℕ}
    (h : b + 4 ≤ a ∨ a + count ≤ b) : (m.memset a v count).read32 b = m.read32 b :=
  read32_congr fun _ _ _ => memset_apply_of_disjoint m v (by omega)

/-- Inside an area filled with zeros every word reads zero. -/
theorem read32_memset_zero (m : Mem) {a b count : ℕ} (hlo : a ≤ b) (hhi : b + 4 ≤ a + count) :
    (m.memset a 0 count).read32 b = 0 := by
  unfold read32 memset
  rw [if_pos (by omega), if_pos (by omega), if_pos (by omega), if_pos (by omega)]
  rfl

end Mem

end Foundations
