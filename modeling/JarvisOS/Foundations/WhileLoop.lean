import Mathlib.Data.Fintype.Pigeonhole
import Mathlib.Data.Set.Finite.Basic
import Mathlib.Logic.Function.Iterate
import Mathlib.Order.Basic
import Mathlib.Tactic.Common

/-!
# While loops

A loop `while cond s do s := next s` over any type of states. `Enters a b` says that the loop, begun
in `a`, runs its body in `b`. Where it can enter finitely many states only, it ends exactly when it
comes back to none of them (`ends_iff`).
-/

namespace Foundations

namespace WhileLoop

variable {α : Type*} (cond : α → Prop) (next : α → α)

/-- The loop, begun in the first state, runs its body in the second. -/
inductive Enters : α → α → Prop
  | here {a : α} (ha : cond a) : Enters a a
  | there {a b : α} (ha : cond a) (hb : Enters (next a) b) : Enters a b

/-- The loop, begun in `a`, ends. -/
def Ends (a : α) : Prop := ∃ n, ¬ cond (next^[n] a)

variable {cond next} {a b : α}

namespace Enters

theorem cond_start (h : Enters cond next a b) : cond a := by
  cases h with
  | here ha => exact ha
  | there ha _ => exact ha

theorem cond_end (h : Enters cond next a b) : cond b := by
  induction h with
  | here ha => exact ha
  | there _ _ ih => exact ih

theorem trans {c : α} (h : Enters cond next a b) (hc : Enters cond next (next b) c) :
    Enters cond next a c := by
  induction h with
  | here ha => exact .there ha hc
  | there ha _ ih => exact .there ha (ih hc)

/-- A loop that only goes up enters states above the first one. -/
theorem le [Preorder α] (h : Enters cond next a b) (hup : ∀ c, Enters cond next a c → c ≤ next c) :
    a ≤ b := by
  induction h with
  | here _ => exact le_rfl
  | there ha hb ih =>
    have hrest := ih fun c hc => hup c (.there ha hc)
    exact (hup _ (.here ha)).trans hrest

end Enters

/-- The loop enters the state after `n` rounds if it does not end before. -/
theorem enters_iterate {n : ℕ} (h : ∀ i ≤ n, cond (next^[i] a)) :
    Enters cond next a (next^[n] a) := by
  induction n generalizing a with
  | zero => exact .here (h 0 le_rfl)
  | succ n ih =>
    rw [Function.iterate_succ_apply]
    apply Enters.there (h 0 (Nat.zero_le _))
    apply ih
    intro i hi
    have hcond := h (i + 1) (Nat.succ_le_succ hi)
    rwa [Function.iterate_succ_apply] at hcond

theorem ends_of_not (h : ¬ cond a) : Ends cond next a := ⟨0, h⟩

theorem ends_next_iff (h : cond a) : Ends cond next (next a) ↔ Ends cond next a := by
  constructor
  · rintro ⟨n, hn⟩
    exact ⟨n + 1, hn⟩
  · rintro ⟨n, hn⟩
    cases n with
    | zero => exact absurd h hn
    | succ n => exact ⟨n, hn⟩

/-- From wherever the loop enters a state that leads back to itself it never ends. -/
theorem not_ends_of_cycle (hb : Enters cond next (next b) b) (h : Enters cond next a b) :
    ¬ Ends cond next a := by
  rintro ⟨n, hn⟩
  induction n generalizing a with
  | zero => exact hn h.cond_start
  | succ n ih =>
    rw [Function.iterate_succ_apply] at hn
    cases h with
    | here _ => exact ih hb hn
    | there _ h => exact ih h hn

/-- A loop that goes up comes back to no state. -/
theorem acyclic_of_lt [Preorder α] (hup : ∀ c, Enters cond next a c → c < next c)
    (h : Enters cond next a b) : ¬ Enters cond next (next b) b := by
  intro hback
  have hle := hback.le fun c hc => (hup c (h.trans hc)).le
  exact lt_irrefl b ((hup b h).trans_le hle)

/-- A state that comes again is entered from its successor. -/
theorem cycle_of_iterate_eq (hcond : ∀ n, cond (next^[n] b)) {k : ℕ} (hagain : next^[k + 1] b = b) :
    Enters cond next (next b) b := by
  rw [Function.iterate_succ_apply] at hagain
  have hback : Enters cond next (next b) (next^[k] (next b)) := by
    apply enters_iterate
    intro i _
    rw [← Function.iterate_succ_apply]
    exact hcond (i + 1)
  rwa [hagain] at hback

/-- **The loop ends exactly when it comes back to no state**, if it can enter finitely many only. -/
theorem ends_iff (hfin : {b | Enters cond next a b}.Finite) :
    Ends cond next a ↔ ∀ b, Enters cond next a b → ¬ Enters cond next (next b) b := by
  constructor
  · intro hends b hb hcycle
    exact not_ends_of_cycle hcycle hb hends
  · intro hnone
    by_contra hends
    have hcond (n : ℕ) : cond (next^[n] a) := by
      by_contra hn
      exact hends ⟨n, hn⟩
    have henters (n : ℕ) : Enters cond next a (next^[n] a) := enters_iterate fun i _ => hcond i
    have hkey (i j : ℕ) (hlt : i < j) : next^[i] a ≠ next^[j] a := by
      intro heq
      obtain ⟨k, rfl⟩ := Nat.exists_eq_add_of_lt hlt
      apply hnone _ (henters i)
      apply cycle_of_iterate_eq
      · intro n
        rw [← Function.iterate_add_apply]
        exact hcond _
      · rw [← Function.iterate_add_apply, heq, Nat.add_comm (k + 1) i]
        rfl
    have := hfin.to_subtype
    obtain ⟨i, j, hne, heq⟩ := Finite.exists_ne_map_eq_of_infinite
      fun n : ℕ => (⟨next^[n] a, henters n⟩ : {b | Enters cond next a b})
    have hsame : next^[i] a = next^[j] a := congrArg Subtype.val heq
    rcases lt_or_gt_of_ne hne with hlt | hlt
    · exact hkey i j hlt hsame
    · exact hkey j i hlt hsame.symm

end WhileLoop

end Foundations
