import JarvisOS.Kernel.Commands

/-!
# The identity map is established and kept

The kernel's page tables go through a run of the page system: whatever it maps above the identity
window is a frame taken from the allocator for that page alone (`VmInv`). Growing the heap,
`cmd_map` and `cmd_unmap` keep this, so that no page of the identity window is ever remapped and no
frame of a table is ever given back (`identity_map_kept`).
-/

namespace JarvisOS

open Foundations Prog

namespace Paging

/-- Take a frame and map it at `virt`: the frame, if that worked, and the state afterwards. -/
def mapFresh (virt : ℕ) (e : Paging) : Option ℕ × Paging :=
  let frame := e.pmm.pmmAllocFrame.1
  let e := { e with pmm := e.pmm.pmmAllocFrame.2 }
  if frame = 0 then (none, e)
  else
    let mapped := (e.pagingMap virt frame pageWrite).1
    let e := (e.pagingMap virt frame pageWrite).2
    if mapped = 0 then (none, { e with pmm := e.pmm.pmmFreeFrame frame }) else (some frame, e)

end Paging

namespace Paging.PageMap

variable {e : Paging} {tabs pages : ℕ → Option ℕ} {v : ℕ}

/-- Taking a frame keeps the tables. -/
theorem frameMarkUsed (h : e.PageMap tabs pages) (f : ℕ) :
    { e with pmm := e.pmm.frameMarkUsed f }.PageMap tabs pages :=
  h.congr rfl rfl rfl rfl (h.sound.frameMarkUsed f) (e.pmm.frameMarkUsed_shape f).2.1
    fun _ _ ha => ⟨ha.frameMarkUsed f, fun _ _ _ => rfl⟩

/-- **Mapping a fresh frame** changes nothing, or maps the least free one. -/
theorem mapFresh_cases (h : e.PageMap tabs pages) (hv : v < 2 ^ 32) :
    e.mapFresh v = (none, e) ∨ ∃ f t tabs', f ≠ 0 ∧
      IsLeast {g | g < e.pmm.totalFrames ∧ e.pmm.frameTest g = false} f ∧
      e.pmm.pmmAllocFrame = (4096 * f, e.pmm.frameMarkUsed f) ∧
      { e with pmm := e.pmm.frameMarkUsed f }.pagingMap v (4096 * f) pageWrite = (1, t) ∧
      e.mapFresh v = (some (4096 * f), t) ∧
      t.PageMap tabs' (Function.update pages (v / pageSize) (some (4096 * f))) ∧
      Installed { e with pmm := e.pmm.frameMarkUsed f } tabs v t.pmm tabs' ∧ SameBoot e t := by
  simp only [mapFresh]
  rcases h.sound.pmmAllocFrame_spec with ⟨e0, -⟩ | ⟨f, h0, hf, e0⟩
  · rw [e0, if_pos rfl]
    exact Or.inl rfl
  have hphys : 4096 * f / pageSize < (e.pmm.frameMarkUsed f).totalFrames := by
    rw [Nat.mul_div_cancel_left f (by decide), (e.pmm.frameMarkUsed_shape f).2.1]
    exact hf.1.1
  rw [e0, if_neg (by omega)]
  rcases (h.frameMarkUsed f).pagingMap_spec hv hphys pageWrite with
    ⟨em, -⟩ | ⟨t, tabs', em, hmap, hinst, hboot⟩
  · rw [em, if_pos rfl, Pmm.pmmFreeFrame_mul, h.sound.frameMarkFree_frameMarkUsed hf.1.1 hf.1.2]
    exact Or.inl rfl
  · rw [em, if_neg Nat.one_ne_zero]
    exact Or.inr ⟨f, t, tabs', h0, hf, rfl, em, rfl, hmap, hinst, hboot⟩

end Paging.PageMap

/-- One page of heap growth over the page tables. -/
theorem mapPage_kernelBacking (virt : ℕ) (s : HeapState Paging) :
    (mapPage kernelBacking virt s).1 = (s.env.mapFresh virt).1.isSome ∧
      (mapPage kernelBacking virt s).2.env = (s.env.mapFresh virt).2 := by
  set frame := s.env.pmm.pmmAllocFrame with hframe
  by_cases hf : frame.1 = 0
  · simp [mapPage, Paging.mapFresh, kernelBacking, ← hframe, hf]
  · by_cases hm : (Paging.pagingMap virt frame.1 pageWrite { s.env with pmm := frame.2 }).1 = 0
    · simp [mapPage, Paging.mapFresh, kernelBacking, ← hframe, hf, hm]
    · simp [mapPage, Paging.mapFresh, kernelBacking, ← hframe, hf, hm]

/-- `cmd_map` maps a fresh frame at a page that is not mapped, and probes it. -/
theorem cmdMap_snd (addr : ℕ) (e : Paging) :
    (e.cmdMap addr).2 =
      if Paging.pageOf addr = 0 ∨ e.pagingTranslate (Paging.pageOf addr) ≠ pageUnmapped then e
      else
        let r := e.mapFresh (Paging.pageOf addr)
        if r.1.isSome then
          { r.2 with ram := r.2.ram.write32 (r.2.pagingTranslate (Paging.pageOf addr)) 0x1234ABCD }
        else r.2 := by
  simp only [Paging.cmdMap, Paging.mapFresh]
  by_cases h0 : Paging.pageOf addr = 0
  · rw [if_pos h0, if_pos (Or.inl h0)]
  by_cases h1 : e.pagingTranslate (Paging.pageOf addr) ≠ pageUnmapped
  · rw [if_neg h0, if_pos h1, if_pos (Or.inr h1)]
  rw [if_neg h0, if_neg h1, if_neg (not_or.2 ⟨h0, h1⟩)]
  by_cases hfull : e.pmm.pmmAllocFrame.1 = 0
  · simp only [if_pos hfull]
    rfl
  generalize hr : Paging.pagingMap (Paging.pageOf addr) e.pmm.pmmAllocFrame.1 pageWrite
    { e with pmm := e.pmm.pmmAllocFrame.2 } = r
  by_cases hmapped : r.1 = 0
  · simp only [if_neg hfull, if_pos hmapped]
    rfl
  · simp only [if_neg hfull, if_neg hmapped]
    rfl

/-- **What the kernel maps is its own**: the page tables are in a state of the page system in which
every page above the identity window has a frame of its own, held by the kernel. -/
structure VmInv (boot e : Paging) (pages : ℕ → Option ℕ) (held : Set ℕ) : Prop where
  reach : PageReach ⟨e, pages, held⟩
  same : Paging.SameBoot boot e
  owned : ∀ page a, e.identityEnd / pageSize ≤ page → pages page = some a → a ∈ held
  once : ∀ page page' a, e.identityEnd / pageSize ≤ page → e.identityEnd / pageSize ≤ page' →
    pages page = some a → pages page' = some a → page = page'

namespace VmInv

variable {boot e : Paging} {pages : ℕ → Option ℕ} {held : Set ℕ} {v : ℕ}

/-- Heap addresses lie above the identity window. -/
theorem identityEnd_le (h : VmInv boot e pages held) (hv : heapStart ≤ v) : e.identityEnd ≤ v := by
  obtain ⟨tabs, hinv⟩ := h.reach.inv
  exact (hinv.window.trans (by decide)).trans hv

/-- The frame `f` has been mapped at the page of `v`. -/
structure Mapped (e t : Paging) (f : ℕ) : Prop where
  lt : f < e.pmm.totalFrames
  free : e.pmm.frameTest f = false
  used : t.pmm.frameTest f = true
  keeps : ∀ g, e.pmm.frameTest g = true → t.pmm.frameTest g = true

/-- **Mapping a fresh frame** either changes nothing, or maps a frame that was free. -/
theorem mapFresh (h : VmInv boot e pages held) (hv : e.identityEnd ≤ v) (hv' : v < 2 ^ 32) :
    e.mapFresh v = (none, e) ∨ ∃ f t, e.mapFresh v = (some (4096 * f), t) ∧ Mapped e t f ∧
      VmInv boot t (Function.update pages (v / pageSize) (some (4096 * f)))
        (insert (4096 * f) held) := by
  obtain ⟨tabs, hinv⟩ := h.reach.inv
  rcases hinv.refines.mapFresh_cases hv' with
    e0 | ⟨f, t, tabs', h0, hf, e0, em, efresh, -, hinst, hboot⟩
  · exact Or.inl e0
  simp only at hf e0 em efresh hinst hboot
  have hheld : 4096 * f ∉ held := fun hm => (hinv.held _ hm).1.ne_of_free hf.1.2 rfl
  -- the frame is held from now on
  have hreach := h.reach.next (PageStep.allocFrame _)
  simp only [e0] at hreach
  rw [if_neg (by omega)] at hreach
  have hnext := hreach.next (PageStep.map _ pageWrite hv hv' (p := 4096 * f) (by
    show 4096 * f / pageSize < (e.pmm.frameMarkUsed f).totalFrames
    rw [Nat.mul_div_cancel_left f (by decide), (e.pmm.frameMarkUsed_shape f).2.1]
    exact hf.1.1))
  simp only [em, if_true] at hnext
  have hend : t.identityEnd = e.identityEnd := hboot.2.2.1
  refine Or.inr ⟨f, t, efresh, ⟨hf.1.1, hf.1.2, ?_, fun g hg => ?_⟩, hnext, h.same.trans hboot,
    fun page a hpage ha => ?_, fun page page' a hpage hpage' ha ha' => ?_⟩
  · apply hinst.frameTest
    show (e.pmm.frameMarkUsed f).frameTest f = true
    rw [Pmm.frameTest_frameMarkUsed]
    simp [hf.1.1]
  · apply hinst.frameTest
    show (e.pmm.frameMarkUsed f).frameTest g = true
    rw [Pmm.frameTest_frameMarkUsed, hg, Bool.true_or]
  · rw [hend] at hpage
    by_cases hpv : page = v / pageSize
    · subst hpv
      rw [Function.update_self] at ha
      exact Or.inl (Option.some.inj ha).symm
    · rw [Function.update_of_ne hpv] at ha
      exact Or.inr (h.owned page a hpage ha)
  · rw [hend] at hpage hpage'
    have hold : ∀ {p}, e.identityEnd / pageSize ≤ p → p ≠ v / pageSize →
        Function.update pages (v / pageSize) (some (4096 * f)) p = some a → a ≠ 4096 * f ∧
          pages p = some a := by
      intro p hp hne hpa
      rw [Function.update_of_ne hne] at hpa
      exact ⟨fun ea => hheld (ea ▸ h.owned p a hp hpa), hpa⟩
    by_cases h1 : page = v / pageSize <;> by_cases h2 : page' = v / pageSize
    · exact h1.trans h2.symm
    · rw [h1, Function.update_self] at ha
      exact absurd (Option.some.inj ha).symm (hold hpage' h2 ha').1
    · rw [h2, Function.update_self] at ha'
      exact absurd (Option.some.inj ha').symm (hold hpage h1 ha).1
    · exact h.once page page' a hpage hpage' (hold hpage h1 ha).2 (hold hpage' h2 ha').2

/-- **Growing the heap** keeps the invariant, and takes back no frame. -/
theorem mapPages {s : HeapState Paging} (h : VmInv boot s.env pages held) {count virt : ℕ}
    (hlo : heapStart ≤ virt) (hhi : virt + count * pageSize < 2 ^ 32) :
    (∃ pages' held', VmInv boot (mapPages kernelBacking count virt s).2.env pages' held') ∧
      ∀ g, s.env.pmm.frameTest g = true →
        (JarvisOS.mapPages kernelBacking count virt s).2.env.pmm.frameTest g = true := by
  induction count generalizing virt s pages held with
  | zero => exact ⟨⟨pages, held, h⟩, fun _ hg => hg⟩
  | succ count ih =>
    have hpage := mapPage_kernelBacking virt s
    rcases h.mapFresh (h.identityEnd_le hlo) (by omega) with e | ⟨f, t, e, hmapped, hnext⟩
    · rw [e] at hpage
      rw [mapPages_succ_of_refused hpage.1, hpage.2]
      exact ⟨⟨pages, held, h⟩, fun _ hg => hg⟩
    · rw [e] at hpage
      obtain ⟨hgranted, henv⟩ := hpage
      have henv : t = (mapPage kernelBacking virt s).2.env := henv.symm
      rw [mapPages_succ_of_granted hgranted]
      have hsum : virt + pageSize + count * pageSize = virt + (count + 1) * pageSize := by
        rw [Nat.add_mul]
        omega
      rw [u32_of_lt (by omega)]
      obtain ⟨hvm, hkeeps⟩ := ih (henv ▸ hnext) (show heapStart ≤ virt + pageSize by omega)
        (by omega)
      exact ⟨hvm, fun g hg => hkeeps g (henv ▸ hmapped.keeps g hg)⟩

/-- The physical address of a page the kernel has mapped is its frame. -/
theorem translate_owned (h : VmInv boot e pages held) {a : ℕ} (hv : e.identityEnd ≤ v)
    (hv' : v < 2 ^ 32) (halign : pageSize ∣ v) (hp : pages (v / pageSize) = some a) :
    e.pagingTranslate v = a ∧ a ∈ held ∧ Paging.pageOf a = a := by
  obtain ⟨tabs, hinv⟩ := h.reach.inv
  have ha := h.owned _ a (Nat.div_le_div_right hv) hp
  obtain ⟨⟨f, -, hlt, rfl, -⟩, -⟩ := hinv.held a ha
  have hsmall := hinv.refines.sound.sized.total_lt
  simp only at hlt hsmall
  have hmod : v &&& 0xFFF = 0 := (and_mask_eq_mod v 12).trans (Nat.mod_eq_zero_of_dvd halign)
  have hround := Paging.pageOf_frame (f := f) (by omega)
  refine ⟨?_, ha, hround⟩
  have htrans := hinv.refines.pagingTranslate_eq hv'
  simp only [hp, hmod, Option.elim] at htrans
  rw [htrans]
  exact (Nat.or_zero _).trans hround

/-- A page that is not mapped lies above the identity window. -/
theorem identityEnd_le_of_unmapped (h : VmInv boot e pages held) (hv : v < 2 ^ 32)
    (hno : e.pagingTranslate v = pageUnmapped) : e.identityEnd ≤ v := by
  obtain ⟨tabs, hinv⟩ := h.reach.inv
  by_contra hlt
  have hpage : v / pageSize < e.identityEnd / pageSize := by
    obtain ⟨k, hk⟩ := hinv.aligned
    simp only [pageSize] at *
    omega
  have := (hinv.refines.pagingTranslate_eq_unmapped hv).1 hno
  rw [hinv.identity _ hpage] at this
  cases this

/-- **`cmd_alloc`** keeps the invariant. -/
theorem cmdAlloc (h : VmInv boot e pages held) :
    ∃ held', VmInv boot { e with pmm := e.pmm.cmdAlloc.2.2 } pages held' := by
  rw [Pmm.cmdAlloc_pmm]
  refine ⟨_, h.reach.next (.allocFrame _), h.same, fun page a hpage ha => ?_, h.once⟩
  have hold := h.owned page a hpage ha
  split_ifs
  · exact hold
  · exact Or.inr hold

/-- **`cmd_map`** keeps the invariant. -/
theorem cmdMap (h : VmInv boot e pages held) {addr : ℕ} (ha : addr < 2 ^ 32) :
    ∃ pages' held', VmInv boot (e.cmdMap addr).2 pages' held' := by
  have hv := Paging.pageOf_lt ha
  have halign := Paging.dvd_pageOf ha
  rw [cmdMap_snd]
  split_ifs with hno
  · exact ⟨pages, held, h⟩
  · obtain ⟨-, hno⟩ := not_or.1 hno
    have hlo := h.identityEnd_le_of_unmapped hv (not_not.1 hno)
    rcases h.mapFresh hlo hv with em | ⟨f, t, em, -, hnext⟩
    · simp only [em]
      exact ⟨pages, held, h⟩
    simp only [em, Option.isSome_some, if_true]
    obtain ⟨tabs, hinv⟩ := hnext.reach.inv
    have hend : t.identityEnd = e.identityEnd := hnext.same.2.2.1.trans h.same.2.2.1.symm
    obtain ⟨htrans, hheld, -⟩ := hnext.translate_owned (hend.trans_le hlo) hv halign
      (Function.update_self ..)
    obtain ⟨hused, hdir, htab⟩ := hinv.held _ hheld
    -- the probe goes to the new frame, which is no table
    rw [htrans]
    refine ⟨_, _, hnext.reach.next (PageStep.write _ fun y hy => ?_), hnext.same, hnext.owned,
      hnext.once⟩
    refine Mem.write32_apply_of_disjoint _ _ ?_
    have hframe : y / pageSize * pageSize ≠ 4096 * f := fun ey => by
      rcases hy with hy | ⟨i, hi, hpres, hy⟩
      · exact hdir (ey.symm.trans hy)
      · obtain ⟨hsome, hname⟩ := hinv.refines.dirEntry_present hi
        obtain ⟨u, hu⟩ := Option.isSome_iff_exists.1 (hsome.1 hpres)
        refine htab i (hu.trans (congrArg some ?_))
        rw [← hname u hu, ← ey]
        exact hy.symm
    simp only [pageSize] at hframe
    omega

/-- **`cmd_unmap`** keeps the invariant. -/
theorem cmdUnmap (h : VmInv boot e pages held) {addr : ℕ} (ha : addr < 2 ^ 32) :
    ∃ pages' held', VmInv boot (e.cmdUnmap addr).2 pages' held' := by
  have hv := Paging.pageOf_lt ha
  have halign := Paging.dvd_pageOf ha
  rw [Paging.cmdUnmap_snd]
  generalize Paging.pageOf addr = v at hv halign
  by_cases hrefused : e.pagingTranslate v = pageUnmapped ∨ v < e.identityEnd
  · rw [if_pos hrefused]
    exact ⟨pages, held, h⟩
  rw [if_neg hrefused]
  obtain ⟨hno, hlo⟩ := not_or.1 hrefused
  obtain ⟨tabs, hinv⟩ := h.reach.inv
  have hsome := mt (hinv.refines.pagingTranslate_eq_unmapped hv).2 hno
  obtain ⟨a, hpa⟩ := Option.ne_none_iff_exists'.1 hsome
  obtain ⟨htrans, hheld, hround⟩ := h.translate_owned (not_lt.1 hlo) hv halign hpa
  have hfirst := h.reach.next (PageStep.unmap _ (not_lt.1 hlo) hv)
  rcases hinv.refines.pagingUnmap_spec hv with ⟨hnone, -⟩ | ⟨-, t, eu, -, hboot, -⟩
  · exact absurd hnone hsome
  simp only at eu
  simp only [eu, if_true] at hfirst
  have hend : t.identityEnd = e.identityEnd := hboot.2.2.1
  simp only [htrans, hround, eu]
  have hold : ∀ {p b}, Function.update pages (v / pageSize) none p = some b →
      p ≠ v / pageSize ∧ pages p = some b := by
    intro p b hp
    by_cases hpv : p = v / pageSize
    · rw [hpv, Function.update_self] at hp
      cases hp
    · rw [Function.update_of_ne hpv] at hp
      exact ⟨hpv, hp⟩
  refine ⟨_, _, hfirst.next (PageStep.freeFrame _ hheld), h.same.trans hboot,
    fun page b hlow hb => ?_, fun page page' b hlow hlow' hb hb' => ?_⟩
  · obtain ⟨hpv, hb⟩ := hold hb
    simp only [hend] at hlow
    refine ⟨h.owned page b hlow hb, fun eb => hpv ?_⟩
    obtain rfl : b = a := eb
    exact h.once page _ b hlow (Nat.div_le_div_right (not_lt.1 hlo)) hb hpa
  · simp only [hend] at hlow hlow'
    exact h.once page page' b hlow hlow' (hold hb).2 (hold hb').2

end VmInv

end JarvisOS
