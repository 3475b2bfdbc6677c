import Mathlib.Data.Set.Insert
import Mathlib.Logic.Function.Basic

/-!
# Resources with exactly one holder

Each holder of a type `H` holds at most one resource. `Exclusive holds used` says that the resources
held are those of `used`, and that no two holders hold the same one. It is kept when a fresh
resource is given to a holder with empty hands (`Exclusive.give`) and when a holder gives its
resource back (`Exclusive.take`). A fresh resource
put in the place of another leaves that one without any holder (`Exclusive.put`).
-/

namespace Foundations

variable {H α : Type*} [DecidableEq H] {holds : H → Option α} {used : Set α} {h : H} {a b : α}

/-- **Every resource of `used` has exactly one holder**, and nothing else is held. -/
structure Exclusive (holds : H → Option α) (used : Set α) : Prop where
  mem_used : ∀ h a, holds h = some a → a ∈ used
  held : ∀ a ∈ used, ∃ h, holds h = some a
  unique : ∀ h h' a, holds h = some a → holds h' = some a → h = h'

namespace Exclusive

omit [DecidableEq H] in
theorem existsUnique (hx : Exclusive holds used) (ha : a ∈ used) : ∃! h, holds h = some a := by
  obtain ⟨h, hh⟩ := hx.held a ha
  exact ⟨h, hh, fun h' hh' => hx.unique h' h a hh' hh⟩

omit [DecidableEq H] in
theorem congr {holds' : H → Option α} {used' : Set α} (hx : Exclusive holds used)
    (hh : ∀ h, holds' h = holds h) (hu : ∀ a, a ∈ used' ↔ a ∈ used) : Exclusive holds' used' where
  mem_used h a ha := (hu a).2 (hx.mem_used h a (hh h ▸ ha))
  held a ha := by
    obtain ⟨h, hh'⟩ := hx.held a ((hu a).1 ha)
    exact ⟨h, (hh h).trans hh'⟩
  unique h h' a ha ha' := hx.unique h h' a (hh h ▸ ha) (hh h' ▸ ha')

/-- A holder gives its resource back. -/
theorem take (hx : Exclusive holds used) (hh : holds h = some a) :
    Exclusive (Function.update holds h none) (used \ {a}) := by
  have hold : ∀ {h' b}, Function.update holds h none h' = some b → h' ≠ h ∧ holds h' = some b := by
    intro h' b hb
    by_cases e : h' = h
    · rw [e, Function.update_self] at hb
      cases hb
    · rw [Function.update_of_ne e] at hb
      exact ⟨e, hb⟩
  refine ⟨fun h' b hb => ?_, fun b hb => ?_, fun h₁ h₂ b h1 h2 => ?_⟩
  · obtain ⟨hne, hb⟩ := hold hb
    refine ⟨hx.mem_used h' b hb, fun e => hne ?_⟩
    obtain rfl : b = a := e
    exact hx.unique h' h b hb hh
  · obtain ⟨h', hh'⟩ := hx.held b hb.1
    refine ⟨h', ?_⟩
    rw [Function.update_of_ne, hh']
    rintro rfl
    exact hb.2 (Option.some.inj (hh'.symm.trans hh))
  · exact hx.unique h₁ h₂ b (hold h1).2 (hold h2).2

/-- **A fresh resource** is given to a holder with empty hands. -/
theorem give (hx : Exclusive holds used) (hh : holds h = none) (ha : a ∉ used) :
    Exclusive (Function.update holds h (some a)) (insert a used) := by
  have hold : ∀ {h' b}, Function.update holds h (some a) h' = some b →
      h' = h ∧ b = a ∨ h' ≠ h ∧ holds h' = some b := by
    intro h' b hb
    by_cases e : h' = h
    · rw [e, Function.update_self] at hb
      exact Or.inl ⟨e, (Option.some.inj hb).symm⟩
    · rw [Function.update_of_ne e] at hb
      exact Or.inr ⟨e, hb⟩
  refine ⟨fun h' b hb => ?_, fun b hb => ?_, fun h₁ h₂ b h1 h2 => ?_⟩
  · rcases hold hb with ⟨-, rfl⟩ | ⟨-, hb⟩
    · exact Set.mem_insert _ _
    · exact Set.mem_insert_of_mem _ (hx.mem_used h' b hb)
  · rcases Set.mem_insert_iff.1 hb with rfl | hb
    · exact ⟨h, Function.update_self ..⟩
    · obtain ⟨h', hh'⟩ := hx.held b hb
      refine ⟨h', ?_⟩
      rw [Function.update_of_ne, hh']
      rintro rfl
      rw [hh] at hh'
      cases hh'
  · rcases hold h1 with ⟨e1, eb⟩ | ⟨-, old1⟩
    · rcases hold h2 with ⟨e2, -⟩ | ⟨-, old2⟩
      · exact e1.trans e2.symm
      · exact absurd (eb ▸ hx.mem_used h₂ b old2) ha
    · rcases hold h2 with ⟨-, eb⟩ | ⟨-, old2⟩
      · exact absurd (eb ▸ hx.mem_used h₁ b old1) ha
      · exact hx.unique h₁ h₂ b old1 old2

/-- **A fresh resource put into a holder's hands** replaces the one held there, which nobody holds
any more. -/
theorem put (hx : Exclusive holds used) (h : H) (ha : a ∉ used) :
    Exclusive (Function.update holds h (some a)) (insert a (used \ {b | holds h = some b})) := by
  cases hh : holds h with
  | none =>
    refine (hx.give hh ha).congr (fun _ => rfl) fun b => ?_
    simp
  | some b =>
    have hgive := (hx.take hh).give (h := h) (a := a) (Function.update_self ..) fun hm => ha hm.1
    rw [Function.update_idem] at hgive
    refine hgive.congr (fun _ => rfl) fun c => ?_
    simp [eq_comm]

end Exclusive

end Foundations
