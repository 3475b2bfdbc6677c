import JarvisOS.Kernel.Mapping
import JarvisOS.Physical.Books

/-!
# A ledger of physical frames

`Ledger` keeps the books of the allocator together with the page tables: every frame taken since
`pmm_init` is the directory, a table, a frame that `alloc` has handed out or the target of one entry
outside the identity window, apart from a set of lost ones. It holds after `paging_init`
(`Ledger.boot`), and `alloc`, `cmd_map` and `cmd_unmap` keep it. Growing the heap loses the frames
that were mapped at the pages granted, and no others (`Ledger.mapPages`).
-/

namespace JarvisOS

open Foundations Paging

/-- Nothing can be mapped any more: no frame can become a table, and where a page is not mapped its
table is missing. -/
structure Stuck (e : Paging) (tabs pages : ℕ → Option ℕ) : Prop where
  frames : PageMap.NoTableFrame e
  tables : ∀ page, pages page = none → tabs (page / 1024) = none
  outside : ∀ page, e.identityEnd / pageSize ≤ page → pages page = none

/-- **The ledger** of the page tables, for the allocator `p₀` left behind by `pmm_init`. -/
structure Ledger (p₀ : Pmm) (e : Paging) (tabs pages : ℕ → Option ℕ) (frames : List ℕ)
    (lost : Set ℕ) : Prop where
  map : e.PageMap tabs pages
  books : Booked p₀ e.pmm
    (holdings e.pageDirectory (e.identityEnd / pageSize) tabs pages frames) lost
  zero : p₀.frameTest 0 = true
  low : (∀ page < e.identityEnd / pageSize, (pages page).isSome) ∨ Stuck e tabs pages
  aligned : pageSize ∣ e.identityEnd
  window : e.identityEnd ≤ identityBytes

namespace Ledger

variable {p₀ : Pmm} {e t : Paging} {tabs pages : ℕ → Option ℕ} {frames : List ℕ} {lost : Set ℕ}
  {f v : ℕ}

theorem congr (h : Ledger p₀ e tabs pages frames lost) {lost' : Set ℕ}
    (hl : ∀ a, a ∈ lost' ↔ a ∈ lost) :
    Ledger p₀ e tabs pages frames lost' :=
  ⟨h.map, h.books.congr (fun _ => rfl) hl, h.zero, h.low, h.aligned, h.window⟩

/-- Where nothing can be mapped, nothing is. -/
theorem mapFresh_of_stuck (h : Ledger p₀ e tabs pages frames lost) (hs : Stuck e tabs pages)
    (hv : v < 2 ^ 32) (hno : pages (v / pageSize) = none) : e.mapFresh v = (none, e) := by
  rcases h.map.mapFresh_cases hv with e0 | ⟨f, t, tabs', -, hf, -, -, -, -, hinst, -⟩
  · exact e0
  have hnone := hs.tables _ hno
  rw [← dirIndex_eq] at hnone
  generalize t.pmm = pmm at hinst
  cases hinst with
  | found hsome =>
    rw [hnone] at hsome
    cases hsome
  | @created g _ _ hg hlow =>
    -- the table's frame would lie above the least free one
    obtain ⟨hglt, hgfree⟩ := hg.1
    rw [(e.pmm.frameMarkUsed_shape f).2.1] at hglt
    rw [Pmm.frameTest_frameMarkUsed, Bool.or_eq_false_iff] at hgfree
    have hle := hf.2 ⟨hglt, hgfree.1⟩
    have hend := hs.frames f hf
    simp only at hlow
    omega

/-- **Mapping a fresh frame** outside the identity window loses the frame that was mapped there. -/
theorem mapFresh (h : Ledger p₀ e tabs pages frames lost) (hv : e.identityEnd ≤ v)
    (hv' : v < 2 ^ 32) : e.mapFresh v = (none, e) ∨ ∃ f t tabs', e.mapFresh v =
      (some (4096 * f), t) ∧
      SameBoot e t ∧
        Ledger p₀ t tabs' (Function.update pages (v / pageSize) (some (4096 * f))) frames
        (lost ∪ {a | pages (v / pageSize) = some a}) := by
  have hpage : e.identityEnd / pageSize ≤ v / pageSize := Nat.div_le_div_right hv
  rcases h.low with hlow | hs
  swap
  · exact Or.inl (h.mapFresh_of_stuck hs hv' (hs.outside _ hpage))
  rcases h.map.mapFresh_cases hv' with e0 | ⟨f, t, tabs', -, hf, -, -, efresh, hmap, hinst, hboot⟩
  · exact Or.inl e0
  refine Or.inr ⟨f, t, tabs', efresh, hboot, ⟨hmap, ?_, h.zero,
    Or.inl fun page hp => ?_, hboot.2.2.1.symm ▸ h.aligned, hboot.2.2.1.symm ▸ h.window⟩⟩
  · have hput := h.books.put hf.1.1 hf.1.2 (.entry (v / pageSize))
    rw [← holdings_updateEntry hpage] at hput
    have hput : Booked p₀ (e.pmm.frameMarkUsed f) _ (lost ∪ {a | pages (v / pageSize) = some a}) :=
      hput.congr (fun _ => rfl) fun a => by simp [holdings, hpage]
    rw [hboot.1, hboot.2.2.1]
    generalize t.pmm = pmm at hinst
    cases hinst with
    | found => exact hput
    | created hnone _ hg _ =>
      rw [holdings_updateTable]
      exact hput.give hg.1.1 hg.1.2 hnone
  · rw [hboot.2.2.1] at hp
    rw [Function.update_of_ne (by omega)]
    exact hlow page hp

/-- **Growing the heap** loses the frames that were mapped at the pages granted. -/
theorem mapPages {s : HeapState Paging} (h : Ledger p₀ s.env tabs pages frames lost)
    {count virt : ℕ} (hlo : s.env.identityEnd ≤ virt)
    (hhi : virt + (mapPages kernelBacking count virt s).1 * pageSize < 2 ^ 32) :
    ∃ tabs' pages', Ledger p₀ (JarvisOS.mapPages kernelBacking count virt s).2.env tabs'
      pages' frames
        (lost ∪ {a | ∃ i < (JarvisOS.mapPages kernelBacking count virt s).1,
          pages (virt / pageSize + i) = some a}) ∧
      (∀ page, (pages page).isSome → (pages' page).isSome) ∧
      ∀ i < (JarvisOS.mapPages kernelBacking count virt s).1,
        (pages' (virt / pageSize + i)).isSome := by
  induction count generalizing virt s tabs pages lost with
  | zero =>
    refine ⟨tabs, pages, h.congr fun a => ?_, fun _ hp => hp,
      fun i hi => absurd hi (Nat.not_lt_zero i)⟩
    simp [JarvisOS.mapPages]
  | succ count ih =>
    obtain ⟨hgranted, henv⟩ := mapPage_kernelBacking virt s
    rcases h.mapFresh hlo (by omega) with e | ⟨f, t, tabs', e, hboot, hnext⟩
    · rw [e] at hgranted henv
      rw [mapPages_succ_of_refused hgranted, henv]
      refine ⟨tabs, pages, h.congr fun a => ?_, fun _ hp => hp,
        fun i hi => absurd hi (Nat.not_lt_zero i)⟩
      simp
    · rw [e] at hgranted henv
      have henv : t = (mapPage kernelBacking virt s).2.env := henv.symm
      rw [mapPages_succ_of_granted hgranted] at hhi ⊢
      rw [Nat.succ_mul, Nat.add_comm _ pageSize, ← Nat.add_assoc] at hhi
      have hvirt : u32 (virt + pageSize) = virt + pageSize :=
        u32_of_lt ((Nat.le_add_right _ _).trans_lt hhi)
      rw [hvirt] at hhi
      rw [hvirt]
      subst henv
      have hend := hboot.2.2.1
      have hlo' : (mapPage kernelBacking virt s).2.env.identityEnd ≤ virt + pageSize := by omega
      obtain ⟨tabs'', pages'', hrest, hkeep, hall⟩ := ih hnext hlo' hhi
      have hdiv : (virt + pageSize) / pageSize = virt / pageSize + 1 :=
        Nat.add_div_right _ (by decide)
      have hlater : ∀ i, Function.update pages (virt / pageSize) (some (4096 * f))
          ((virt + pageSize) / pageSize + i) = pages (virt / pageSize + (i + 1)) := by
        intro i
        rw [hdiv, Function.update_of_ne (by omega), Nat.add_right_comm, Nat.add_assoc]
      refine ⟨tabs'', pages'', hrest.congr fun a => ?_, fun page hp => hkeep page ?_, fun i
        hi => ?_⟩
      · simp only [Set.mem_union, Set.mem_ofPred_eq, hlater, Nat.exists_lt_succ_left, Nat.add_zero,
          or_assoc]
      · by_cases hpage : page = virt / pageSize
        · rw [hpage, Function.update_self]
          rfl
        · rwa [Function.update_of_ne hpage]
      · cases i with
        | zero =>
          refine hkeep _ ?_
          rw [Nat.add_zero, Function.update_self]
          rfl
        | succ i =>
          have hsome := hall i (Nat.lt_of_succ_lt_succ hi)
          rwa [hdiv, Nat.add_right_comm, Nat.add_assoc] at hsome

/-- **`alloc`** hands out a frame. -/
theorem alloc (h : Ledger p₀ e tabs pages frames lost) :
    Ledger p₀ { e with pmm := e.pmm.pmmAllocFrame.2 } tabs pages
      (if e.pmm.pmmAllocFrame.1 = 0 then frames else frames ++ [e.pmm.pmmAllocFrame.1]) lost := by
  rcases h.map.sound.pmmAllocFrame_spec with ⟨e0, -⟩ | ⟨f, h0, hf, e0⟩
  · rw [e0, if_pos rfl]
    exact h
  rw [e0, if_neg (show ¬ 4096 * f = 0 by omega)]
  refine ⟨h.map.frameMarkUsed f, ?_, h.zero,
    h.low.imp_right fun hs => ⟨fun g hg => ?_, hs.tables, hs.outside⟩, h.aligned, h.window⟩
  · rw [holdings_append]
    exact h.books.give hf.1.1 hf.1.2 (by simp [holdings])
  · obtain ⟨hglt, hgfree⟩ := hg.1
    simp only at hglt hgfree
    rw [(e.pmm.frameMarkUsed_shape f).2.1] at hglt
    rw [Pmm.frameTest_frameMarkUsed, Bool.or_eq_false_iff] at hgfree
    exact (hs.frames f hf).trans (Nat.mul_le_mul_left 4096 (hf.2 ⟨hglt, hgfree.1⟩))

/-- What an entry outside the identity window holds is a frame in use, and neither the directory nor
a table. -/
theorem entry_frame (h : Ledger p₀ e tabs pages frames lost) {page a : ℕ}
    (hp : e.identityEnd / pageSize ≤ page) (ha : pages page = some a) :
    ∃ f, a = 4096 * f ∧ f ≠ 0 ∧ f < e.pmm.totalFrames ∧ e.pmm.frameTest f = true ∧
      a ≠ e.pageDirectory ∧ ∀ i, tabs i ≠ some a := by
  have hentry : holdings e.pageDirectory (e.identityEnd / pageSize) tabs pages frames
    (.entry page) =
      some a := (if_pos hp).trans ha
  obtain ⟨f, hlt, rfl, hf, hf₀⟩ := h.books.mem_taken hentry
  refine ⟨f, rfl, ?_, hlt, hf, ?_, fun i hi => ?_⟩
  · rintro rfl
    rw [h.zero] at hf₀
    cases hf₀
  · intro hdir
    have := h.books.holders.unique (.entry page) .directory _ hentry (congrArg some hdir.symm)
    cases this
  · have := h.books.holders.unique (.entry page) (.table i) _ hentry hi
    cases this

/-- **The physical address** of an address in a page mapped outside the identity window. -/
theorem translate_mapped (h : Ledger p₀ e tabs pages frames lost) {a : ℕ} (hv : e.identityEnd ≤ v)
    (hv' : v < 2 ^ 32) (ha : pages (v / pageSize) = some a) :
    e.pagingTranslate v = a + v % pageSize := by
  obtain ⟨f, rfl, -, hlt, -⟩ := h.entry_frame (Nat.div_le_div_right hv) ha
  have hsmall := h.map.sound.sized.total_lt
  have hround : 4096 * f / pageSize * pageSize = 4096 * f := by
    simp only [pageSize]
    omega
  have hlow : v &&& 0xFFF = v % 4096 := and_mask_eq_mod v 12
  have htrans := h.map.pagingTranslate_eq hv'
  rw [ha, hlow] at htrans
  rw [htrans, Option.elim, frameOf_eq (by omega), hround]
  exact frame_or_flags f (Nat.mod_lt _ (by decide))

theorem translate_entry (h : Ledger p₀ e tabs pages frames lost) {a : ℕ} (hv : e.identityEnd ≤ v)
    (hv' : v < 2 ^ 32) (halign : pageSize ∣ v) (ha : pages (v / pageSize) = some a) :
    e.pagingTranslate v = a := by
  rw [h.translate_mapped hv hv' ha, Nat.mod_eq_zero_of_dvd halign, Nat.add_zero]

/-- **A page mapped outside the identity window** leads to a frame in use, to which no other page
outside it leads. -/
theorem backed (h : Ledger p₀ e tabs pages frames lost) (hv : e.identityEnd ≤ v) (hv' : v < 2 ^ 32)
    (hsome : (pages (v / pageSize)).isSome) :
    ∃ f < e.pmm.totalFrames, e.pmm.frameTest f = true ∧
      e.pagingTranslate v = 4096 * f + v % pageSize ∧
      ∀ w, e.identityEnd ≤ w → w < 2 ^ 32 → w / pageSize ≠ v / pageSize →
        e.pagingTranslate w / pageSize ≠ f := by
  obtain ⟨a, ha⟩ := Option.isSome_iff_exists.1 hsome
  have hpage : e.identityEnd / pageSize ≤ v / pageSize := Nat.div_le_div_right hv
  obtain ⟨f, rfl, -, hlt, hf, -⟩ := h.entry_frame hpage ha
  refine ⟨f, hlt, hf, h.translate_mapped hv hv' ha, fun w hw hw' hne heq => ?_⟩
  have hsmall := h.map.sound.sized.total_lt
  have hpage' : e.identityEnd / pageSize ≤ w / pageSize := Nat.div_le_div_right hw
  rcases hpw : pages (w / pageSize) with _ | b
  · rw [(h.map.pagingTranslate_eq_unmapped hw').2 hpw] at heq
    simp only [pageUnmapped, pageSize] at heq
    omega
  · obtain ⟨g, rfl, -⟩ := h.entry_frame hpage' hpw
    rw [h.translate_mapped hw hw' hpw] at heq
    obtain rfl : g = f := by
      simp only [pageSize] at heq
      omega
    have hsame := h.books.holders.unique (.entry (w / pageSize)) (.entry (v / pageSize)) _
      ((if_pos hpage').trans hpw) ((if_pos hpage).trans ha)
    exact hne (Holder.entry.inj hsame)

/-- Writing to a frame that an entry outside the identity window holds. -/
theorem write (h : Ledger p₀ e tabs pages frames lost) {page a : ℕ}
    (hp : e.identityEnd / pageSize ≤ page) (ha : pages page = some a) {m : Mem}
    (hm : ∀ y, y < a ∨ a + pageSize ≤ y → m y = e.ram y) :
    Ledger p₀ { e with ram := m } tabs pages frames lost := by
  obtain ⟨f, rfl, -, -, -, hdir, htab⟩ := h.entry_frame hp ha
  refine ⟨h.map.congr rfl rfl rfl rfl h.map.sound rfl fun b hb hu => ⟨hu, fun y h1 h2 => hm y ?_⟩,
    h.books, h.zero, h.low.imp_right fun hs => ⟨hs.frames, hs.tables, hs.outside⟩, h.aligned,
      h.window⟩
  obtain ⟨g, -, -, rfl, -⟩ := hu
  have hne : g ≠ f := by
    rintro rfl
    rcases hb with hb | ⟨i, hi⟩
    exacts [hdir hb, htab i hi]
  simp only [pageSize] at *
  omega

/-- A page that is not mapped lies outside the identity window, or nothing can be mapped there. -/
theorem outside_of_unmapped (h : Ledger p₀ e tabs pages frames lost) (hv : v < 2 ^ 32)
    (hno : pages (v / pageSize) = none) : e.identityEnd ≤ v ∨ e.mapFresh v = (none, e) := by
  rcases h.low with hlow | hs
  swap
  · exact Or.inr (h.mapFresh_of_stuck hs hv hno)
  refine Or.inl (not_lt.1 fun hlt => ?_)
  have hlt : v / pageSize < e.identityEnd / pageSize := by
    obtain ⟨k, hk⟩ := h.aligned
    simp only [pageSize] at *
    omega
  have := hlow _ hlt
  rw [hno] at this
  cases this

/-- **`cmd_map`** keeps the ledger, and where the pages lead. -/
theorem cmdMap_keeps (h : Ledger p₀ e tabs pages frames lost) {addr : ℕ} (ha : addr < 2 ^ 32) :
    ∃ tabs' pages', Ledger p₀ (e.cmdMap addr).2 tabs' pages' frames lost ∧
      ∀ page a, pages page = some a → pages' page = some a := by
  have hv := Paging.pageOf_lt ha
  have halign := Paging.dvd_pageOf ha
  rw [cmdMap_snd]
  split_ifs with hno
  · exact ⟨tabs, pages, h, fun _ _ hp => hp⟩
  obtain ⟨-, hno⟩ := not_or.1 hno
  have hnone := (h.map.pagingTranslate_eq_unmapped hv).1 (not_not.1 hno)
  have hcases : e.mapFresh (Paging.pageOf addr) = (none, e) ∨
    e.identityEnd ≤ Paging.pageOf addr ∧ _ :=
    (h.outside_of_unmapped hv hnone).symm.imp_right fun hlo => ⟨hlo, h.mapFresh hlo hv⟩
  rcases hcases with e0 | ⟨hlo, e0 | ⟨f, t, tabs', e0, hboot, hnext⟩⟩
  · simp only [e0]
    exact ⟨tabs, pages, h, fun _ _ hp => hp⟩
  · simp only [e0]
    exact ⟨tabs, pages, h, fun _ _ hp => hp⟩
  · have hend := hboot.2.2.1
    have hlow : t.identityEnd / pageSize ≤ Paging.pageOf addr / pageSize :=
      hend ▸ Nat.div_le_div_right hlo
    have htrans := hnext.translate_entry (hend.trans_le hlo) hv halign (Function.update_self ..)
    simp only [e0, Option.isSome_some, if_true, htrans]
    -- no frame was mapped there before, and the probe goes to the new one
    have hkept := (hnext.write hlow (Function.update_self ..)
      (m := t.ram.write32 (4096 * f) 0x1234ABCD) fun y hy =>
        Mem.write32_apply_of_disjoint _ _ (by simp only [pageSize] at hy; omega))
    refine ⟨tabs', _, hkept.congr fun a => ?_, fun page a hp => ?_⟩
    · simp [hnone]
    · rw [Function.update_of_ne fun e => by rw [e, hnone] at hp; cases hp]
      exact hp

/-- **`cmd_map`** keeps the ledger, and what is mapped. -/
theorem cmdMap (h : Ledger p₀ e tabs pages frames lost) {addr : ℕ} (ha : addr < 2 ^ 32) :
    ∃ tabs' pages', Ledger p₀ (e.cmdMap addr).2 tabs' pages' frames lost ∧
      ∀ page, (pages page).isSome → (pages' page).isSome := by
  obtain ⟨tabs', pages', hnext, hkeep⟩ := h.cmdMap_keeps ha
  refine ⟨tabs', pages', hnext, fun page hp => ?_⟩
  obtain ⟨a, ha⟩ := Option.isSome_iff_exists.1 hp
  rw [hkeep page a ha]
  rfl

/-- **`cmd_unmap`** keeps the ledger, and what is mapped at other pages. -/
theorem cmdUnmap (h : Ledger p₀ e tabs pages frames lost) {addr : ℕ} (ha : addr < 2 ^ 32) :
    ∃ pages', Ledger p₀ (e.cmdUnmap addr).2 tabs pages' frames lost ∧
      ∀ page, page ≠ addr / pageSize → pages' page = pages page := by
  have hv := Paging.pageOf_lt ha
  have halign := Paging.dvd_pageOf ha
  have hdiv : Paging.pageOf addr / pageSize = addr / pageSize := by
    rw [Paging.pageOf_eq ha, Nat.mul_div_cancel _ (by decide)]
  rw [Paging.cmdUnmap_snd]
  generalize Paging.pageOf addr = v at hv halign hdiv
  by_cases hrefused : e.pagingTranslate v = pageUnmapped ∨ v < e.identityEnd
  · rw [if_pos hrefused]
    exact ⟨pages, h, fun _ _ => rfl⟩
  rw [if_neg hrefused]
  obtain ⟨hno, hlo⟩ := not_or.1 hrefused
  have hlo := not_lt.1 hlo
  have hlow : e.identityEnd / pageSize ≤ v / pageSize := Nat.div_le_div_right hlo
  rcases h.map.pagingUnmap_spec hv with ⟨hnone, -⟩ | ⟨hsome, t, eu, hpmm, hboot, hmap⟩
  · exact absurd ((h.map.pagingTranslate_eq_unmapped hv).2 hnone) hno
  obtain ⟨a, hpa⟩ := Option.isSome_iff_exists.1 hsome
  obtain ⟨f, rfl, hf0, hlt, -, hdir, htab⟩ := h.entry_frame hlow hpa
  have hsmall := h.map.sound.sized.total_lt
  simp only [h.translate_entry hlo hv halign hpa,
    Paging.pageOf_frame (show 4096 * f < 2 ^ 32 by omega),
    eu, Pmm.pmmFreeFrame_mul, hpmm]
  refine ⟨Function.update pages (v / pageSize) none,
    ⟨?_, ?_, h.zero, ?_, hboot.2.2.1.symm ▸ h.aligned,
    hboot.2.2.1.symm ▸ h.window⟩, fun page hne => Function.update_of_ne (hdiv ▸ hne) _ _⟩
  · refine hmap.congr rfl rfl rfl rfl (h.map.sound.frameMarkFree hf0) ?_ fun b hb hu =>
      ⟨?_, fun _ _ _ => rfl⟩
    · show (e.pmm.frameMarkFree f).totalFrames = t.pmm.totalFrames
      rw [hpmm]
      exact (e.pmm.frameMarkFree_shape f).2.1
    · rw [hpmm] at hu
      refine hu.frameMarkFree fun eb => ?_
      rcases hb with hb | ⟨i, hi⟩
      · exact hdir (eb.symm.trans (hb.trans hboot.1))
      · exact htab i (eb ▸ hi)
  · show Booked p₀ (e.pmm.frameMarkFree f) (holdings t.pageDirectory (t.identityEnd / pageSize) tabs
      (Function.update pages (v / pageSize) none) frames) lost
    rw [hboot.1, hboot.2.2.1, holdings_updateEntry hlow]
    exact h.books.take ((if_pos hlow).trans hpa)
  · refine Or.inl fun page hp => ?_
    have hp : page < e.identityEnd / pageSize := hboot.2.2.1 ▸ hp
    rw [Function.update_of_ne (by omega)]
    rcases h.low with hfull | hs
    · exact hfull page hp
    · have hnone := hs.outside _ hlow
      rw [hpa] at hnone
      cases hnone

/-! ### The ledger after boot -/

/-- No frame has been taken since `p₀` by `p₀` itself. -/
theorem booked_start (p₀ : Pmm) : Booked p₀ p₀ (fun _ : Holder => none) ∅ := by
  refine ⟨⟨fun _ _ ha => (nomatch ha), fun a ha => ?_, fun _ _ _ ha => (nomatch ha)⟩,
    fun a ha => absurd ha (Set.notMem_empty a), fun _ hf => hf, rfl⟩
  obtain ⟨⟨f, -, -, hused, hfree⟩, -⟩ := ha
  rw [hused] at hfree
  cases hfree

/-- The books once the directory has its frame. -/
theorem booked_directory {p₀ : Pmm} (hlt : f < p₀.totalFrames) (hf : p₀.frameTest f = false) :
    Booked p₀ (p₀.frameMarkUsed f) (holdings (4096 * f) 0 (fun _ => none) (fun _ => none) [])
      ∅ := by
  refine ((booked_start p₀).give hlt hf (h := .directory) rfl).congr (fun h => ?_) fun _ => Iff.rfl
  cases h <;> simp [holdings]

/-- A new table is booked. -/
theorem booked_installed {d : ℕ} {s : Paging} {tabs' : ℕ → Option ℕ} {pmm : Pmm}
    (h : Booked p₀ s.pmm (holdings d 0 tabs (fun _ => none) []) ∅)
    (hinst : PageMap.Installed s tabs v pmm tabs') :
    Booked p₀ pmm (holdings d 0 tabs' (fun _ => none) []) ∅ := by
  cases hinst with
  | found => exact h
  | created hnone _ hf _ =>
    rw [holdings_updateTable]
    exact h.give hf.1.1 hf.1.2 hnone

/-- Identity pages are held by nobody. -/
theorem booked_identity {d limit n : ℕ} (hn : n ≤ limit)
    (h : Booked p₀ e.pmm (holdings d 0 tabs (fun _ => none) []) ∅) :
    Booked p₀ e.pmm (holdings d limit tabs (identityPages n) []) ∅ := by
  refine h.congr (fun k => ?_) fun _ => Iff.rfl
  cases k with
  | entry page =>
    simp only [holdings, ite_self]
    split_ifs with hle
    · exact if_neg (not_lt.2 (hn.trans hle))
    · rfl
  | _ => rfl

/-- **The ledger after `paging_init`**, whether or not it has enabled paging. -/
theorem boot (img : KernelImage) (mm : MemMap) (ram : Bitmap) (m : Mem)
    (hfree : ∃ f < (Pmm.pmmInit img mm ram).totalFrames,
      (Pmm.pmmInit img mm ram).frameTest f = false) :
    ∃ tabs pages, Ledger (Pmm.pmmInit img mm ram)
        (bootPaging mm ⟨Pmm.pmmInit img mm ram, []⟩ m) tabs pages [] ∅ ∧
      ∀ page, (bootPaging mm ⟨Pmm.pmmInit img mm ram, []⟩ m).identityEnd / pageSize ≤ page →
        pages page = none := by
  have hsound := (FrameReach.init img mm ram).sound
  obtain ⟨f, hlt, hf⟩ := hfree
  have hzero : (Pmm.pmmInit img mm ram).frameTest 0 = true :=
    hsound.zero.resolve_right fun h0 => by simp only at h0; omega
  rcases pagingInit_cases hsound
      (P := fun d pmm tabs => Booked (Pmm.pmmInit img mm ram) pmm
        (holdings d 0 tabs (fun _ => none) []) ∅)
      (fun f _ hf => booked_directory hf.1.1 hf.1.2) (fun h hinst => booked_installed h hinst)
      mm.highest.isLt (pmmInit_totalFrames img mm ram) m with
    ⟨hall, -⟩ | ⟨s, tabs, n, hmap, hbooks, -, hdvd, hle, ⟨e, rfl, -⟩ | ⟨e, -, hn, hnone, hno⟩⟩
  · have := hall f hlt
    simp only at this
    rw [hf] at this
    cases this
  · refine ⟨tabs, identityPages (s.identityEnd / pageSize), ?_⟩
    rw [bootPaging, e]
    refine ⟨⟨hmap.map.congr rfl rfl rfl rfl hmap.map.sound rfl fun _ _ hu => ⟨hu, fun _ _ _ => rfl⟩,
      booked_identity le_rfl hbooks, hzero, Or.inl fun page hp => identityPages_isSome.2 hp, hdvd,
      hle⟩, fun page hp => if_neg (not_lt.2 hp)⟩
  · refine ⟨tabs, identityPages n, ?_⟩
    rw [bootPaging, e]
    have hfull : n ≤ n / 1024 * 1024 := by
      rw [← not_lt, ← hmap.tabs_iff, hnone]
      simp
    have habove : ∀ page, s.identityEnd / pageSize ≤ page → identityPages n page = none :=
      fun page hp => if_neg (not_lt.2 (hn.le.trans hp))
    refine ⟨⟨hmap.map, booked_identity hn.le hbooks, hzero, Or.inr ⟨hno, fun page hp => ?_, habove⟩,
      hdvd, hle⟩, habove⟩
    have hpage : n ≤ page := by
      rw [← not_lt, ← identityPages_isSome, hp]
      simp
    rw [← Option.not_isSome_iff_eq_none, hmap.tabs_iff]
    omega

end Ledger

/-! ## What the ledger says about memory -/

/-- The holder `k` holds the frame at `a`, as the tables in memory have it: it is the directory, a
table that a present directory entry names, a frame handed out, or what the present page-table entry
of a page outside the identity window leads to. -/
def Paging.HeldBy (e : Paging) (frames : List ℕ) : Holder → ℕ → Prop
  | .directory, a => e.pageDirectory = a
  | .table i, a => i < 1024 ∧ e.dirEntry i &&& pagePresent ≠ 0 ∧ frameOf (e.dirEntry i) = a
  | .alloc k, a => frames[k]? = some a
  | .entry page, a => e.identityEnd / pageSize ≤ page ∧ page < 2 ^ 20 ∧ a ≠ pageUnmapped ∧
      e.pagingTranslate (page * pageSize) = a

namespace Ledger

variable {p₀ : Pmm} {e : Paging} {tabs pages : ℕ → Option ℕ} {frames : List ℕ} {lost : Set ℕ}
  {f a : ℕ} {k : Holder}

theorem heldBy_iff (h : Ledger p₀ e tabs pages frames lost) : e.HeldBy frames k a ↔
    holdings e.pageDirectory (e.identityEnd / pageSize) tabs pages frames k = some a := by
  cases k with
  | directory => exact Option.some_inj.symm
  | table i =>
    constructor
    · rintro ⟨hi, hpres, rfl⟩
      obtain ⟨hsome, hname⟩ := h.map.dirEntry_present hi
      obtain ⟨t, ht⟩ := Option.isSome_iff_exists.1 (hsome.1 hpres)
      exact ht.trans (congrArg some (hname t ht).symm)
    · intro ht
      have hi := h.map.tables.index_lt i a ht
      obtain ⟨hsome, hname⟩ := h.map.dirEntry_present hi
      exact ⟨hi, hsome.2 (Option.isSome_iff_exists.2 ⟨a, ht⟩), hname a ht⟩
  | alloc k => exact Iff.rfl
  | entry page =>
    obtain ⟨n, hn⟩ := h.aligned
    have hdiv : page * pageSize / pageSize = page := Nat.mul_div_cancel _ (by decide)
    have hlow : e.identityEnd / pageSize ≤ page → e.identityEnd ≤ page * pageSize := by
      simp only [pageSize] at *
      omega
    have htrans : ∀ {b}, e.identityEnd / pageSize ≤ page → page < 2 ^ 20 → pages page = some b →
        e.pagingTranslate (page * pageSize) = b := by
      intro b hle hlt hb
      exact h.translate_entry (hlow hle) (by simp only [pageSize]; omega) (Nat.dvd_mul_left _ _)
        (hdiv.symm ▸ hb)
    constructor
    · rintro ⟨hle, hlt, hne, rfl⟩
      have hmapped := mt (h.map.pagingTranslate_eq_unmapped (w := page * pageSize)
        (by simp only [pageSize]; omega)).2 hne
      rw [hdiv] at hmapped
      obtain ⟨b, hb⟩ := Option.ne_none_iff_exists'.1 hmapped
      rw [htrans hle hlt hb]
      exact (if_pos hle).trans hb
    · intro ha
      by_cases hle : e.identityEnd / pageSize ≤ page
      · have hp : pages page = some a := (if_pos hle).symm.trans ha
        have hlt := (h.map.backed _ _ hp).1
        refine ⟨hle, hlt, ?_, htrans hle hlt hp⟩
        obtain ⟨f, rfl, -⟩ := h.entry_frame hle hp
        simp only [pageUnmapped]
        omega
      · rw [holdings, if_neg hle] at ha
        cases ha

/-- **A frame that is not lost has exactly one holder.** -/
theorem existsUnique_holder (h : Ledger p₀ e tabs pages frames lost) (hf : f < e.pmm.totalFrames)
    (hused : e.pmm.frameTest f = true) (hfree : p₀.frameTest f = false) (hkept : 4096 * f ∉ lost) :
    ∃! k, e.HeldBy frames k (4096 * f) := by
  simp only [h.heldBy_iff]
  exact h.books.holders.existsUnique ⟨Pmm.mem_taken.2 ⟨hf, hused, hfree⟩, hkept⟩

/-- **A lost frame has none.** -/
theorem no_holder (h : Ledger p₀ e tabs pages frames lost) (hl : a ∈ lost) :
    ¬ ∃ k, e.HeldBy frames k a := by
  rintro ⟨k, hk⟩
  exact (h.books.holders.mem_used k a (h.heldBy_iff.1 hk)).2 hl

end Ledger

end JarvisOS
