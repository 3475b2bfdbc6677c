import JarvisOS.Foundations.ByteMemory
import Mathlib.Logic.Function.Basic

/-!
# Two-level tables in memory

A directory of words names tables of words, and the entries of the tables represent a partial map:
index `i * F.entries + j` is entry `j` of the table that entry `i` of the directory names.
`Tables F m dir tabs f` says that memory `m` holds a directory at `dir` and tables at `tabs` that
represent `f`. Writing an entry updates `f` (`Tables.setEntry`), and a zeroed area linked into the
directory extends `tabs` (`Tables.addTable`); both need that directory and tables lie apart.
-/

namespace Foundations

/-- How the words of a two-level table are read: the number of entries of a directory and of a
table, the word that names a table, and what the words in a table stand for. -/
structure TableFormat (α : Type*) where
  entries : ℕ
  link : ℕ → ℕ
  Encodes : ℕ → Option α → Prop
  encodes_zero : Encodes 0 none

namespace TableFormat

variable {α : Type*} (F : TableFormat α)

/-- The bytes of a directory or of a table. -/
def bytes : ℕ := 4 * F.entries

/-- Two areas of the size of a table that do not overlap. -/
def Apart (a b : ℕ) : Prop := a + F.bytes ≤ b ∨ b + F.bytes ≤ a

theorem Apart.symm {F : TableFormat α} {a b : ℕ} (h : F.Apart a b) : F.Apart b a := Or.symm h

/-- Memory `m` holds a directory at `dir` and tables at `tabs`, which represent `f`. -/
structure Tables (m : Mem) (dir : ℕ) (tabs : ℕ → Option ℕ) (f : ℕ → Option α) : Prop where
  dir_entry : ∀ i < F.entries, m.read32 (dir + 4 * i) = (tabs i).elim 0 F.link
  tbl_entry : ∀ i t, tabs i = some t → ∀ j < F.entries,
    F.Encodes (m.read32 (t + 4 * j)) (f (i * F.entries + j))
  index_lt : ∀ i t, tabs i = some t → i < F.entries
  apart_dir : ∀ i t, tabs i = some t → F.Apart t dir
  apart : ∀ i j t u, tabs i = some t → tabs j = some u → i ≠ j → F.Apart t u

namespace Tables

variable {F} {m m' : Mem} {dir : ℕ} {tabs : ℕ → Option ℕ} {f : ℕ → Option α}

/-- An entry lies inside its table. -/
theorem entry_le {j : ℕ} (hj : j < F.entries) (t : ℕ) : t + 4 * j + 4 ≤ t + F.bytes := by
  unfold bytes
  omega

/-- A zeroed directory names no table. -/
theorem start (h : ∀ i < F.entries, m.read32 (dir + 4 * i) = 0) :
    F.Tables m dir (fun _ => none) (fun _ => none) where
  dir_entry := h
  tbl_entry _ _ ht := nomatch ht
  index_lt _ _ ht := nomatch ht
  apart_dir _ _ ht := nomatch ht
  apart _ _ _ _ ht := nomatch ht

/-- The tables depend on their own bytes only. -/
theorem congr (h : F.Tables m dir tabs f)
    (hdir : ∀ y, dir ≤ y → y < dir + F.bytes → m' y = m y)
    (htab : ∀ i t, tabs i = some t → ∀ y, t ≤ y → y < t + F.bytes → m' y = m y) :
    F.Tables m' dir tabs f where
  dir_entry i hi := by
    rw [← h.dir_entry i hi]
    have := entry_le hi dir
    exact Mem.read32_congr fun y h1 h2 => hdir y (by omega) (by omega)
  tbl_entry i t ht j hj := by
    have hr : m'.read32 (t + 4 * j) = m.read32 (t + 4 * j) := by
      have := entry_le hj t
      exact Mem.read32_congr fun y h1 h2 => htab i t ht y (by omega) (by omega)
    rw [hr]
    exact h.tbl_entry i t ht j hj
  index_lt := h.index_lt
  apart_dir := h.apart_dir
  apart := h.apart

/-- **Writing an entry** updates the map at its index. -/
theorem setEntry (h : F.Tables m dir tabs f) {i j t v : ℕ} {o : Option α} (ht : tabs i = some t)
    (hj : j < F.entries) (hv : F.Encodes (u32 v) o) :
    F.Tables (m.write32 (t + 4 * j) v) dir tabs (Function.update f (i * F.entries + j) o) where
  dir_entry i' hi' := by
    rw [← h.dir_entry i' hi']
    have h1 := h.apart_dir i t ht
    have h2 := entry_le hj t
    have h3 := entry_le hi' dir
    exact Mem.read32_write32_of_disjoint _ _ (by unfold Apart at h1; omega)
  tbl_entry i' t' ht' j' hj' := by
    have h2 := entry_le hj t
    have h3 := entry_le hj' t'
    by_cases hi : i' = i
    · subst hi
      obtain rfl : t = t' := Option.some.inj (ht.symm.trans ht')
      by_cases hjj : j' = j
      · subst hjj
        rwa [Mem.read32_write32_same, Function.update_self]
      · rw [Mem.read32_write32_of_disjoint _ _ (by omega), Function.update_of_ne (by omega)]
        exact h.tbl_entry i' t ht j' hj'
    · have h1 := h.apart i i' t t' ht ht' (Ne.symm hi)
      have hne : i' * F.entries + j' ≠ i * F.entries + j := fun e => hi <| by
        have := congrArg (· / F.entries) e
        simpa [Nat.mul_comm _ F.entries, Nat.mul_add_div (Nat.zero_lt_of_lt hj),
          Nat.div_eq_of_lt hj, Nat.div_eq_of_lt hj'] using this
      rw [Mem.read32_write32_of_disjoint _ _ (by unfold Apart at h1; omega),
        Function.update_of_ne hne]
      exact h.tbl_entry i' t' ht' j' hj'
  index_lt := h.index_lt
  apart_dir := h.apart_dir
  apart := h.apart

/-- **Linking a zeroed table** into the directory. The map is undefined there already. -/
theorem addTable (h : F.Tables m dir tabs f) {i t : ℕ} (hi : i < F.entries) (hnone : tabs i = none)
    (hf : ∀ j < F.entries, f (i * F.entries + j) = none) (hdir : F.Apart t dir)
    (htab : ∀ j u, tabs j = some u → F.Apart t u) (hlink : F.link t < 2 ^ 32) :
    F.Tables ((m.memset t 0 F.bytes).write32 (dir + 4 * i) (F.link t)) dir
      (Function.update tabs i (some t)) f := by
  have hentry := entry_le hi dir
  -- the other tables keep their bytes
  have hother : ∀ j u, tabs j = some u → ∀ y, u ≤ y → y < u + F.bytes →
      (m.memset t 0 F.bytes).write32 (dir + 4 * i) (F.link t) y = m y := by
    intro j u hu y h1 h2
    have h3 := h.apart_dir j u hu
    have h4 := htab j u hu
    unfold Apart at h3 h4
    rw [Mem.write32_apply_of_disjoint _ _ (by omega), Mem.memset_apply_of_disjoint _ _ (by omega)]
  have hcases : ∀ j u, Function.update tabs i (some t) j = some u →
      (j = i ∧ u = t) ∨ (j ≠ i ∧ tabs j = some u) := by
    intro j u hu
    by_cases hj : j = i
    · subst hj
      rw [Function.update_self] at hu
      exact Or.inl ⟨rfl, (Option.some.inj hu).symm⟩
    · rw [Function.update_of_ne hj] at hu
      exact Or.inr ⟨hj, hu⟩
  refine ⟨fun j hj => ?_, fun j u hu k hk => ?_, fun j u hu => ?_, fun j u hu => ?_,
    fun j k u v hu hv hne => ?_⟩
  · by_cases hji : j = i
    · subst hji
      rw [Mem.read32_write32_same, Function.update_self, u32_of_lt hlink]
      rfl
    · have h1 := entry_le hj dir
      unfold Apart at hdir
      rw [Function.update_of_ne hji, ← h.dir_entry j hj,
        Mem.read32_write32_of_disjoint _ _ (by omega),
        Mem.read32_memset_of_disjoint _ _ (by omega)]
  · have h1 := entry_le hk u
    rcases hcases j u hu with ⟨rfl, rfl⟩ | ⟨-, hu⟩
    · unfold Apart at hdir
      rw [hf k hk, Mem.read32_write32_of_disjoint _ _ (by omega),
        Mem.read32_memset_zero _ (by omega) (by omega)]
      exact F.encodes_zero
    · rw [Mem.read32_congr fun y h2 h3 => hother j u hu y (by omega) (by omega)]
      exact h.tbl_entry j u hu k hk
  · rcases hcases j u hu with ⟨rfl, -⟩ | ⟨-, hu⟩
    · exact hi
    · exact h.index_lt j u hu
  · rcases hcases j u hu with ⟨-, rfl⟩ | ⟨-, hu⟩
    · exact hdir
    · exact h.apart_dir j u hu
  · rcases hcases j u hu with ⟨rfl, rfl⟩ | ⟨-, hu'⟩ <;>
      rcases hcases k v hv with ⟨rfl, rfl⟩ | ⟨-, hv'⟩
    · exact absurd rfl hne
    · exact htab k v hv'
    · exact (htab j u hu').symm
    · exact h.apart j k u v hu' hv' hne

end Tables

end TableFormat

end Foundations
