import JarvisOS.Foundations.Holders
import JarvisOS.Physical.FrameExclusive

/-!
# The books of the frame allocator

The frames in use beyond those that `pmm_init` has left used are held by the page directory, by the
page tables, by the callers of `alloc`, and by the page-table entries outside the identity window.
`Booked` says that every such frame has exactly one holder, apart from a set of lost ones that have
none. A frame is booked when it is put into a holder's hands (`Booked.put`), which loses what was
held there, and the entry is closed when it is given back (`Booked.take`).
-/

namespace JarvisOS

open Foundations

/-- Who can hold a frame. -/
inductive Holder
  | directory
  | table (i : ℕ)
  /-- The frame that `alloc` has handed out as its `k`-th. -/
  | alloc (k : ℕ)
  /-- The page-table entry of a page outside the identity window. -/
  | entry (page : ℕ)
  deriving DecidableEq

/-- What each holder holds, for a directory, tables, mapped pages and a list of frames handed out;
`limit` is the first page outside the identity window. -/
def holdings (dir limit : ℕ) (tabs pages : ℕ → Option ℕ) (frames : List ℕ) : Holder → Option ℕ
  | .directory => some dir
  | .table i => tabs i
  | .alloc k => frames[k]?
  | .entry page => if limit ≤ page then pages page else none

section Holdings

variable {dir limit : ℕ} {tabs pages : ℕ → Option ℕ} {frames : List ℕ}

theorem holdings_updateTable (i : ℕ) (o : Option ℕ) :
    holdings dir limit (Function.update tabs i o) pages frames =
      Function.update (holdings dir limit tabs pages frames) (.table i) o := by
  funext h
  by_cases e : h = .table i
  · subst e
    simp [holdings]
  · rw [Function.update_of_ne e]
    cases h with
    | table j => exact Function.update_of_ne (fun hj => e (congrArg Holder.table hj)) _ _
    | _ => rfl

theorem holdings_updateEntry {page : ℕ} (hp : limit ≤ page) (o : Option ℕ) :
    holdings dir limit tabs (Function.update pages page o) frames =
      Function.update (holdings dir limit tabs pages frames) (.entry page) o := by
  funext h
  by_cases e : h = .entry page
  · subst e
    simp [holdings, hp]
  · rw [Function.update_of_ne e]
    cases h with
    | entry j =>
      have hj : j ≠ page := fun hj => e (congrArg Holder.entry hj)
      simp only [holdings, Function.update_of_ne hj]
    | _ => rfl

theorem holdings_append (a : ℕ) :
    holdings dir limit tabs pages (frames ++ [a]) =
      Function.update (holdings dir limit tabs pages frames) (.alloc frames.length) (some a) := by
  funext h
  by_cases e : h = .alloc frames.length
  · subst e
    simp [holdings]
  · rw [Function.update_of_ne e]
    cases h with
    | alloc k =>
      have hk : k ≠ frames.length := fun hk => e (congrArg Holder.alloc hk)
      simp only [holdings]
      rcases Nat.lt_or_gt_of_ne hk with hlt | hgt
      · exact List.getElem?_append_left hlt
      · rw [List.getElem?_eq_none (by simp; omega), List.getElem?_eq_none (by omega)]
    | _ => rfl

end Holdings

namespace Pmm

/-- The frames in use that `p₀` has not left used, by their addresses. -/
def taken (p₀ p : Pmm) : Set ℕ :=
  {a | ∃ f < p.totalFrames, a = 4096 * f ∧ p.frameTest f = true ∧ p₀.frameTest f = false}

variable {p₀ p : Pmm} {f : ℕ}

theorem mem_taken : 4096 * f ∈ p₀.taken p ↔
    f < p.totalFrames ∧ p.frameTest f = true ∧ p₀.frameTest f = false := by
  constructor
  · rintro ⟨g, hlt, e, hg⟩
    obtain rfl : f = g := by omega
    exact ⟨hlt, hg⟩
  · rintro ⟨hlt, hf⟩
    exact ⟨f, hlt, rfl, hf⟩

theorem not_mem_taken (hfree : p.frameTest f = false) : 4096 * f ∉ p₀.taken p := by
  intro hm
  rw [mem_taken, hfree] at hm
  exact Bool.false_ne_true hm.2.1

/-- Taking a frame. -/
theorem mem_taken_frameMarkUsed (hf : f < p.totalFrames) (h₀ : p₀.frameTest f = false) (a : ℕ) :
    a ∈ p₀.taken (p.frameMarkUsed f) ↔ a ∈ insert (4096 * f) (p₀.taken p) := by
  have htotal := (p.frameMarkUsed_shape f).2.1
  constructor
  · rintro ⟨g, hlt, rfl, hg, hg₀⟩
    by_cases e : g = f
    · exact Set.mem_insert_iff.2 (Or.inl (by rw [e]))
    · rw [frameTest_frameMarkUsed] at hg
      exact Set.mem_insert_of_mem _ (mem_taken.2 ⟨htotal ▸ hlt, by simpa [e] using hg, hg₀⟩)
  · rintro (rfl | ⟨g, hlt, rfl, hg, hg₀⟩)
    · exact mem_taken.2 ⟨htotal.symm ▸ hf, by rw [frameTest_frameMarkUsed]; simp [hf], h₀⟩
    · exact mem_taken.2 ⟨htotal.symm ▸ hlt, by rw [frameTest_frameMarkUsed, hg, Bool.true_or], hg₀⟩

/-- Giving a frame back. -/
theorem mem_taken_frameMarkFree (a : ℕ) :
    a ∈ p₀.taken (p.frameMarkFree f) ↔ a ∈ p₀.taken p \ {4096 * f} := by
  have htotal := (p.frameMarkFree_shape f).2.1
  constructor
  · rintro ⟨g, hlt, rfl, hg, hg₀⟩
    rw [htotal] at hlt
    rw [frameTest_frameMarkFree, Bool.and_eq_true] at hg
    refine ⟨mem_taken.2 ⟨hlt, hg.1, hg₀⟩, fun e => ?_⟩
    obtain rfl : g = f := by
      have : 4096 * g = 4096 * f := e
      omega
    have := hg.2
    simp [hlt] at this
  · rintro ⟨⟨g, hlt, rfl, hg, hg₀⟩, hne⟩
    have hne : g ≠ f := fun e => hne (by rw [e]; rfl)
    refine mem_taken.2 ⟨htotal.symm ▸ hlt, ?_, hg₀⟩
    rw [frameTest_frameMarkFree, hg]
    simp [hne]

end Pmm

/-! ## Frames and holders -/

/-- **The books of the allocator**: every frame taken since `p₀`, other than those of `lost`, has
one holder. -/
structure Booked {H : Type} (p₀ p : Pmm) (holds : H → Option ℕ) (lost : Set ℕ) : Prop where
  holders : Exclusive holds (p₀.taken p \ lost)
  lost_taken : ∀ a ∈ lost, a ∈ p₀.taken p
  kept : ∀ f, p₀.frameTest f = true → p.frameTest f = true
  total : p.totalFrames = p₀.totalFrames

namespace Booked

variable {H : Type} [DecidableEq H] {p₀ p : Pmm} {holds : H → Option ℕ} {lost : Set ℕ} {f : ℕ}
  {h : H}

omit [DecidableEq H] in
theorem congr (hb : Booked p₀ p holds lost) {holds' : H → Option ℕ} {lost' : Set ℕ}
    (hh : ∀ h, holds' h = holds h) (hl : ∀ a, a ∈ lost' ↔ a ∈ lost) : Booked p₀ p holds' lost' where
  holders := hb.holders.congr hh fun a => and_congr_right fun _ => not_congr (hl a)
  lost_taken a ha := hb.lost_taken a ((hl a).1 ha)
  kept := hb.kept
  total := hb.total

omit [DecidableEq H] in
/-- What is held has been taken. -/
theorem mem_taken (hb : Booked p₀ p holds lost) {a : ℕ} (hh : holds h = some a) : a ∈ p₀.taken p :=
  (hb.holders.mem_used h a hh).1

/-- **A free frame is taken** and put into the hands of `h`, in the place of what `h` held. -/
theorem put (hb : Booked p₀ p holds lost) (hlt : f < p.totalFrames) (hf : p.frameTest f = false)
    (h : H) : Booked p₀ (p.frameMarkUsed f) (Function.update holds h (some (4096 * f)))
      (lost ∪ {a | holds h = some a}) := by
  have hnot : 4096 * f ∉ p₀.taken p := Pmm.not_mem_taken hf
  have h₀ : p₀.frameTest f = false := by
    by_contra hu
    rw [hb.kept f (by simpa using hu)] at hf
    cases hf
  have hmark := Pmm.mem_taken_frameMarkUsed (p := p) hlt h₀
  have hlost : ∀ a ∈ lost ∪ {a | holds h = some a}, a ∈ p₀.taken p := by
    rintro a (ha | ha)
    · exact hb.lost_taken a ha
    · exact hb.mem_taken ha
  refine ⟨?_, fun a ha => (hmark a).2 (Set.mem_insert_of_mem _ (hlost a ha)), fun g hg => ?_,
    (p.frameMarkUsed_shape f).2.1.trans hb.total⟩
  · refine (hb.holders.put h fun hm => hnot hm.1).congr (fun _ => rfl) fun a => ?_
    rw [Set.mem_sdiff, hmark, Set.mem_insert_iff, Set.mem_insert_iff, Set.mem_sdiff, Set.mem_sdiff,
      and_assoc, Set.mem_union, not_or, or_and_right, and_iff_left_of_imp]
    rintro rfl
    exact not_or.1 fun hm => hnot (hlost _ hm)
  · rw [Pmm.frameTest_frameMarkUsed, hb.kept g hg, Bool.true_or]

/-- A free frame is given to a holder with empty hands. -/
theorem give (hb : Booked p₀ p holds lost) (hlt : f < p.totalFrames) (hf : p.frameTest f = false)
    (hh : holds h = none) :
    Booked p₀ (p.frameMarkUsed f) (Function.update holds h (some (4096 * f))) lost := by
  refine (hb.put hlt hf h).congr (fun _ => rfl) fun a => ?_
  simp [hh]

/-- **A frame is given back.** -/
theorem take (hb : Booked p₀ p holds lost) (hh : holds h = some (4096 * f)) :
    Booked p₀ (p.frameMarkFree f) (Function.update holds h none) lost := by
  obtain ⟨htaken, hnot⟩ := hb.holders.mem_used h _ hh
  have hfree : ∀ a, a ∈ p₀.taken (p.frameMarkFree f) ↔ a ∈ p₀.taken p \ {4096 * f} :=
    Pmm.mem_taken_frameMarkFree
  refine ⟨(hb.holders.take hh).congr (fun _ => rfl) fun a => ?_, fun a ha => ?_, fun g hg => ?_,
    (p.frameMarkFree_shape f).2.1.trans hb.total⟩
  · rw [Set.mem_sdiff, hfree, Set.mem_sdiff, Set.mem_sdiff, Set.mem_sdiff, and_right_comm]
  · exact (hfree a).2 ⟨hb.lost_taken a ha, fun e => hnot (e ▸ ha)⟩
  · have hne : g ≠ f := by
      rintro rfl
      rw [(Pmm.mem_taken.1 htaken).2.2] at hg
      cases hg
    rw [Pmm.frameTest_frameMarkFree, hb.kept g hg]
    simp [hne]

end Booked

end JarvisOS
