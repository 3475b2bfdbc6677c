import JarvisOS.Foundations.ByteMemory
import Mathlib.Data.Set.Piecewise

/-!
# Memory behind address translation

`view τ m` is the memory `m` as one sees it through the translation `τ`, and `put32 τ m a v` is `m`
after the word `v` has been stored through it. On addresses that `τ` sends to bytes of their own, a
store is a store in the view (`view_put32`).

`overlay K r m` is `m` with the bytes in `K` as `r` has them. Code that keeps away from `K` does not
notice an overlay: its reads are those of `m` (`read32_overlay`), and its writes commute with it
(`overlay_write32`, `overlay_memset`).
-/

namespace Foundations.Mem

variable {m r : Mem} {K : Set ℕ} {a v : ℕ}

/-! ## Words as bytes -/

/-- A word is stored byte by byte. -/
theorem write32_eq_write8 (m : Mem) (a v : ℕ) :
    m.write32 a v = (((m.write8 a (.ofNat v)).write8 (a + 1) (.ofNat (v / 2 ^ 8))).write8 (a + 2)
      (.ofNat (v / 2 ^ 16))).write8 (a + 3) (.ofNat (v / 2 ^ 24)) := by
  funext x
  unfold write32 write8
  by_cases h0 : x = a
  · simp [h0]
  by_cases h1 : x = a + 1
  · simp [h1]
  by_cases h2 : x = a + 2
  · simp [h2]
  by_cases h3 : x = a + 3
  · simp [h3]
  · simp [h0, h1, h2, h3]

/-! ## Overlays -/

open Classical in
/-- `m` with the bytes in `K` as `r` has them. -/
noncomputable def overlay (K : Set ℕ) (r m : Mem) : Mem := K.piecewise r m

theorem overlay_of_mem {y : ℕ} (h : y ∈ K) : overlay K r m y = r y := by
  classical exact Set.piecewise_eq_of_mem K r m h

theorem overlay_of_notMem {y : ℕ} (h : y ∉ K) : overlay K r m y = m y := by
  classical exact Set.piecewise_eq_of_notMem K r m h

theorem eq_overlay (h : ∀ y, y ∉ K → r y = m y) : r = overlay K r m := by
  funext y
  by_cases hy : y ∈ K
  · rw [overlay_of_mem hy]
  · rw [overlay_of_notMem hy, h y hy]

/-- Two memories that agree on `K` and off it. -/
theorem overlay_ext {m' : Mem} (h : ∀ y ∈ K, m' y = r y) (h' : ∀ y, y ∉ K → m' y = m y) :
    overlay K r m = m' := by
  funext y
  by_cases hy : y ∈ K
  · rw [overlay_of_mem hy, h y hy]
  · rw [overlay_of_notMem hy, h' y hy]

theorem read32_overlay (h : ∀ y, a ≤ y → y < a + 4 → y ∉ K) :
    (overlay K r m).read32 a = m.read32 a :=
  read32_congr fun y h1 h2 => overlay_of_notMem (h y h1 h2)

theorem overlay_write32 (h : ∀ y, a ≤ y → y < a + 4 → y ∉ K) :
    (overlay K r m).write32 a v = overlay K r (m.write32 a v) := by
  refine (overlay_ext (fun y hy => ?_) fun y hy => ?_).symm
  · rw [write32_apply_of_disjoint _ _ (by by_contra hin; exact h y (by omega) (by omega) hy),
      overlay_of_mem hy]
  · unfold write32
    rw [overlay_of_notMem hy]

theorem overlay_memset {count : ℕ} {b : UInt8} (h : ∀ y, a ≤ y → y < a + count → y ∉ K) :
    (overlay K r m).memset a b count = overlay K r (m.memset a b count) := by
  refine (overlay_ext (fun y hy => ?_) fun y hy => ?_).symm
  · rw [memset_apply_of_disjoint _ _ (by by_contra hin; exact h y (by omega) (by omega) hy),
      overlay_of_mem hy]
  · unfold memset
    rw [overlay_of_notMem hy]

/-! ## Translation -/

/-- The memory as one sees it through the translation `τ`. -/
def view (τ : ℕ → Option ℕ) (m : Mem) : Mem := fun x => (τ x).elim 0 m

/-- Store a byte through the translation. -/
def put (τ : ℕ → Option ℕ) (m : Mem) (a : ℕ) (b : UInt8) : Mem := (τ a).elim m fun y => m.write8 y b

/-- Store a word through the translation. -/
def put32 (τ : ℕ → Option ℕ) (m : Mem) (a v : ℕ) : Mem :=
  put τ (put τ (put τ (put τ m a (.ofNat v)) (a + 1) (.ofNat (v / 2 ^ 8))) (a + 2)
    (.ofNat (v / 2 ^ 16))) (a + 3) (.ofNat (v / 2 ^ 24))

variable {τ : ℕ → Option ℕ} {W : Set ℕ} {b : UInt8} {x y : ℕ}

theorem view_of_some (h : τ x = some y) : view τ m x = m y := by
  rw [view, h]
  rfl

theorem put_of_some (h : τ a = some y) : put τ m a b = m.write8 y b := by
  rw [put, h]
  rfl

/-- The translation sends the addresses in `W` to bytes of their own. -/
structure Injects (τ : ℕ → Option ℕ) (W : Set ℕ) : Prop where
  isSome : ∀ x ∈ W, (τ x).isSome
  injOn : ∀ x ∈ W, ∀ x' ∈ W, τ x = τ x' → x = x'

/-- **A byte stored is stored in the view.** -/
theorem view_put (h : Injects τ W) (ha : a ∈ W) (hx : x ∈ W) :
    view τ (put τ m a b) x = (view τ m).write8 a b x := by
  obtain ⟨y, hy⟩ := Option.isSome_iff_exists.1 (h.isSome a ha)
  obtain ⟨z, hz⟩ := Option.isSome_iff_exists.1 (h.isSome x hx)
  rw [put_of_some hy, view_of_some hz]
  by_cases hxa : x = a
  · subst hxa
    obtain rfl : z = y := Option.some.inj (hz.symm.trans hy)
    simp [write8]
  · have hne : z ≠ y := fun e => hxa (h.injOn x hx a ha (hz.trans (e ▸ hy.symm)))
    simp [write8, hxa, hne, view_of_some hz]

theorem write8_congr {m' : Mem} (h : m' x = m x) : m'.write8 a b x = m.write8 a b x := by
  unfold write8
  rw [h]

/-- **A word stored is stored in the view.** -/
theorem view_put32 (h : Injects τ W) (ha : ∀ i < 4, a + i ∈ W) (hx : x ∈ W) :
    view τ (put32 τ m a v) x = (view τ m).write32 a v x := by
  have h0 := view_put (m := m) (b := .ofNat v) h (ha 0 (by decide)) hx
  have h1 := (view_put h (ha 1 (by decide)) hx).trans (write8_congr (b := .ofNat (v / 2 ^ 8)) h0)
  have h2 := (view_put h (ha 2 (by decide)) hx).trans (write8_congr (b := .ofNat (v / 2 ^ 16)) h1)
  rw [write32_eq_write8]
  exact (view_put h (ha 3 (by decide)) hx).trans (write8_congr h2)

/-- A store changes only the bytes that the translation names. -/
theorem put_apply_of_ne (h : ∀ y, τ a = some y → x ≠ y) : put τ m a b x = m x := by
  unfold put
  cases hy : τ a with
  | none => rfl
  | some y => exact if_neg (h y hy)

theorem put32_apply_of_ne (h : ∀ i < 4, ∀ y, τ (a + i) = some y → x ≠ y) :
    put32 τ m a v x = m x := by
  have h0 : put τ m a (.ofNat v) x = m x := put_apply_of_ne (h 0 (by decide))
  rw [put32, put_apply_of_ne (h 3 (by decide)), put_apply_of_ne (h 2 (by decide)),
    put_apply_of_ne (h 1 (by decide)), h0]

end Foundations.Mem
