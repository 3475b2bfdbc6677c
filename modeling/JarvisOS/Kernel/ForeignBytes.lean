import JarvisOS.Foundations.Translation
import JarvisOS.Kernel.Mapping

/-!
# Bytes that are none of the paging code's business

The paging code reads and writes the directory, the tables and the frames that it takes for new
tables. What stands in other frames in use makes no difference to it: with other bytes there
(`Paging.patched`) every operation answers the same, and does the same to the rest of memory
(`pagingMap_patched` and its siblings, up to the shell's commands `cmdMap_patched` and
`cmdUnmap_patched`).
-/

namespace JarvisOS

open Foundations

namespace Paging

/-- The bytes of the frame at `a`. -/
def InFrame (a y : ℕ) : Prop := y / pageSize * pageSize = a

theorem inFrame_of_le {a y : ℕ} (ha : pageSize ∣ a) (h1 : a ≤ y) (h2 : y < a + pageSize) :
    InFrame a y := by
  obtain ⟨k, rfl⟩ := ha
  simp only [InFrame, pageSize] at *
  omega

/-- The bytes in `K` lie in frames in use that are neither the directory nor a table. -/
structure Foreign (s : Paging) (tabs : ℕ → Option ℕ) (K : Set ℕ) : Prop where
  used : ∀ y ∈ K, s.pmm.frameTest (y / pageSize) = true
  dir : ∀ y ∈ K, ¬ InFrame s.pageDirectory y
  table : ∀ y ∈ K, ∀ i t, tabs i = some t → ¬ InFrame t y

/-- The same state over a memory that has the bytes in `K` as `r` has them. -/
noncomputable def patched (K : Set ℕ) (r : Mem) (s : Paging) : Paging :=
  { s with ram := Mem.overlay K r s.ram }

section Over

variable {s : Paging} {K : Set ℕ} {r : Mem}

@[simp] theorem patched_pmm : (s.patched K r).pmm = s.pmm := rfl
@[simp] theorem patched_pageDirectory : (s.patched K r).pageDirectory = s.pageDirectory := rfl
@[simp] theorem patched_identityEnd : (s.patched K r).identityEnd = s.identityEnd := rfl
@[simp] theorem patched_ram : (s.patched K r).ram = Mem.overlay K r s.ram := rfl

theorem patched_with_pmm (p : Pmm) :
    { s.patched K r with pmm := p } = { s with pmm := p }.patched K r := rfl

end Over

namespace PageMap

variable {s : Paging} {tabs M : ℕ → Option ℕ} {K : Set ℕ} {r : Mem} {v f : ℕ}

/-- The directory and the tables lie outside `K`. -/
theorem notMem_of_table (h : s.PageMap tabs M) (hK : s.Foreign tabs K) {a y : ℕ}
    (ha : a = s.pageDirectory ∨ ∃ i, tabs i = some a) (h1 : a ≤ y) (h2 : y < a + pageSize) : y ∉
      K := by
  have hdvd : s.pmm.InUse a → pageSize ∣ a := by
    rintro ⟨f, -, -, rfl, -⟩
    exact ⟨f, rfl⟩
  rcases ha with rfl | ⟨i, hi⟩
  · exact fun hy => hK.dir y hy (inFrame_of_le (hdvd h.dir) h1 h2)
  · exact fun hy => hK.table y hy i a hi (inFrame_of_le (hdvd (h.table i a hi).1) h1 h2)

theorem notMem_of_free (hK : s.Foreign tabs K) (hf : s.pmm.frameTest f = false) {y : ℕ}
    (h1 : 4096 * f ≤ y) (h2 : y < 4096 * f + pageSize) : y ∉ K := by
  intro hy
  have hused := hK.used y hy
  rw [show y / pageSize = f by simp only [pageSize] at *; omega, hf] at hused
  cases hused

theorem patched (h : s.PageMap tabs M) (hK : s.Foreign tabs K) (r : Mem) :
    (s.patched K r).PageMap tabs M :=
  h.congr rfl rfl rfl rfl h.sound rfl fun _ ha hu =>
    ⟨hu, fun _ h1 h2 => Mem.overlay_of_notMem (h.notMem_of_table hK ha h1 h2)⟩

/-- **`get_table`** does not notice the bytes in `K`, and what it finds or makes lies outside
`K`. -/
theorem getTable_patched (h : s.PageMap tabs M) (hK : s.Foreign tabs K) (hv : v < 2 ^ 32)
    (create : Bool) :
    (s.patched K r).getTable v create =
      ((s.getTable v create).1, (s.getTable v create).2.patched K r) ∧
      ((s.getTable v create).1 ≠ 0 → ∀ y, (s.getTable v create).1 ≤ y →
        y < (s.getTable v create).1 + pageSize → y ∉ K) := by
  rcases ht : tabs (dirIndex v) with _ | a
  swap
  · rw [h.getTable_of_some hv ht, (h.patched hK r).getTable_of_some hv ht]
    exact ⟨rfl, fun _ y => h.notMem_of_table hK (Or.inr ⟨_, ht⟩)⟩
  cases create with
  | false =>
    rw [h.getTable_lookup_of_none hv ht, (h.patched hK r).getTable_lookup_of_none hv ht]
    exact ⟨rfl, fun h0 => absurd rfl h0⟩
  | true =>
    rcases h.getTable_create hv ht with ⟨e, hno⟩ | ⟨f, h0, hf, hlow, e⟩ <;>
      rcases (h.patched hK r).getTable_create hv ht with ⟨e', hno'⟩ | ⟨f', h0', hf', hlow', e'⟩
    · rw [e, e']
      exact ⟨rfl, fun h0 => absurd rfl h0⟩
    · exact absurd (hno f' hf') (not_le.2 hlow')
    · exact absurd (hno' f hf) (not_le.2 hlow)
    · obtain rfl : f = f' := hf.unique hf'
      have hframe : ∀ y, 4096 * f ≤ y → y < 4096 * f + pageSize → y ∉ K :=
        fun y => notMem_of_free hK hf.1.2
      rw [e, e']
      refine ⟨Prod.ext rfl ?_, fun _ => hframe⟩
      simp only [withTable, Paging.patched]
      rw [Mem.overlay_memset hframe, Mem.overlay_write32 fun y h1 h2 => ?_]
      have := dirIndex_lt hv
      exact h.notMem_of_table hK (Or.inl rfl) (y := y) (by omega) (by simp only [pageSize]; omega)

/-- **`paging_map`** does not notice the bytes in `K`. -/
theorem pagingMap_patched (h : s.PageMap tabs M) (hK : s.Foreign tabs K) (hv : v < 2 ^ 32)
    (phys flags : ℕ) : (s.patched K r).pagingMap v phys flags =
      ((s.pagingMap v phys flags).1, (s.pagingMap v phys flags).2.patched K r) := by
  obtain ⟨e, hout⟩ := h.getTable_patched (r := r) hK hv true
  have hti := tblIndex_lt v
  unfold pagingMap
  rw [e]
  dsimp only
  by_cases h0 : (s.getTable v true).1 = 0
  · rw [if_pos h0, if_pos h0]
  have hword : ∀ y, (s.getTable v true).1 + 4 * tblIndex v ≤ y →
      y < (s.getTable v true).1 + 4 * tblIndex v + 4 → y ∉ K := fun y h1 h2 =>
    hout h0 y (by omega) (by simp only [pageSize]; omega)
  have hentry : ((s.getTable v true).2.patched K r).tblEntry (s.getTable v true).1 (tblIndex v) =
      (s.getTable v true).2.tblEntry (s.getTable v true).1 (tblIndex v) := Mem.read32_overlay hword
  rw [if_neg h0, if_neg h0, hentry]
  refine Prod.ext rfl ?_
  simp only [Paging.patched]
  rw [Mem.overlay_write32 hword]

/-- **`paging_unmap`** does not notice the bytes in `K`. -/
theorem pagingUnmap_patched (h : s.PageMap tabs M) (hK : s.Foreign tabs K) (hv : v < 2 ^ 32) :
    (s.patched K r).pagingUnmap v = ((s.pagingUnmap v).1, (s.pagingUnmap v).2.patched K r) := by
  obtain ⟨e, hout⟩ := h.getTable_patched (r := r) hK hv false
  have hti := tblIndex_lt v
  unfold pagingUnmap
  rw [e]
  dsimp only
  by_cases h0 : (s.getTable v false).1 = 0
  · rw [if_pos h0, if_pos h0]
  have hword : ∀ y, (s.getTable v false).1 + 4 * tblIndex v ≤ y →
      y < (s.getTable v false).1 + 4 * tblIndex v + 4 → y ∉ K := fun y h1 h2 =>
    hout h0 y (by omega) (by simp only [pageSize]; omega)
  have hentry : ((s.getTable v false).2.patched K r).tblEntry (s.getTable v false).1 (tblIndex v) =
      (s.getTable v false).2.tblEntry (s.getTable v false).1 (tblIndex v) :=
        Mem.read32_overlay hword
  rw [if_neg h0, if_neg h0, hentry]
  split_ifs
  · rfl
  · refine Prod.ext rfl ?_
    simp only [Paging.patched]
    rw [Mem.overlay_write32 hword]

/-- **`paging_translate`** does not notice the bytes in `K`. -/
theorem pagingTranslate_patched (h : s.PageMap tabs M) (hK : s.Foreign tabs K) (hv : v < 2 ^ 32) :
    (s.patched K r).pagingTranslate v = s.pagingTranslate v := by
  rw [(h.patched hK r).pagingTranslate_eq hv, h.pagingTranslate_eq hv]

/-! ## Fresh frames, and the shell's commands -/

theorem foreign_frameMarkUsed (hK : s.Foreign tabs K) (f : ℕ) :
    { s with pmm := s.pmm.frameMarkUsed f }.Foreign tabs K :=
  ⟨fun y hy => by rw [Pmm.frameTest_frameMarkUsed, hK.used y hy, Bool.true_or], hK.dir, hK.table⟩

/-- **Mapping a fresh frame**. -/
theorem mapFresh_patched (h : s.PageMap tabs M) (hK : s.Foreign tabs K) (hv : v < 2 ^ 32) :
    (s.patched K r).mapFresh v = ((s.mapFresh v).1, (s.mapFresh v).2.patched K r) := by
  unfold mapFresh
  dsimp only
  rw [patched_pmm, patched_with_pmm]
  rcases h.sound.pmmAllocFrame_spec with ⟨e, -⟩ | ⟨f, h0, -, e⟩
  · rw [e, if_pos rfl, if_pos rfl]
  have hne : ¬ 4096 * f = 0 := by omega
  rw [e]
  dsimp only
  rw [if_neg hne, if_neg hne, (h.frameMarkUsed f).pagingMap_patched (foreign_frameMarkUsed hK f) hv]
  split_ifs <;> rfl

/-- What a call of `paging_map` adds lies outside `K` too. -/
theorem foreign_installed (hK : s.Foreign tabs K) {t : Paging} {tabs' : ℕ → Option ℕ}
    (hinst : Installed s tabs v t.pmm tabs') (hdir : t.pageDirectory = s.pageDirectory) :
    t.Foreign tabs' K := by
  refine ⟨fun y hy => hinst.frameTest (hK.used y hy), fun y hy => hdir ▸ hK.dir y hy, ?_⟩
  generalize t.pmm = pmm at hinst
  cases hinst with
  | found => exact hK.table
  | @created g _ _ hg _ =>
    intro y hy i a ha
    by_cases hi : i = dirIndex v
    · subst hi
      rw [Function.update_self] at ha
      obtain rfl := Option.some.inj ha
      intro hin
      refine notMem_of_free hK hg.1.2 (y := y) ?_ ?_ hy <;> simp only [InFrame, pageSize]
        at * <;> omega
    · rw [Function.update_of_ne hi] at ha
      exact hK.table y hy i a ha

/-- The frame just mapped. -/
theorem translate_mapFresh (h : s.PageMap tabs M) (hv : v < 2 ^ 32) (halign : pageSize ∣ v)
    {t : Paging}
    {tabs' : ℕ → Option ℕ} (hf : f < s.pmm.totalFrames)
    (ht : t.PageMap tabs' (Function.update M (v / pageSize) (some (4096 * f)))) :
    t.pagingTranslate v = 4096 * f := by
  have hsmall := h.sound.sized.total_lt
  have hround : frameOf (4096 * f) = 4096 * f := by
    rw [frameOf_eq (by omega)]
    simp only [pageSize]
    omega
  have hlow : v &&& 0xFFF = 0 := (and_mask_eq_mod v 12).trans (Nat.mod_eq_zero_of_dvd halign)
  rw [ht.pagingTranslate_eq hv, Function.update_self, Option.elim, hround, hlow, Nat.or_zero]

/-- A frame just taken is foreign. -/
theorem foreign_fresh (h : s.PageMap tabs M) (hf : f < s.pmm.totalFrames)
    (hfree : s.pmm.frameTest f = false) :
    { s with pmm := s.pmm.frameMarkUsed f }.Foreign tabs {y | InFrame (4096 * f) y} := by
  have hne : ∀ {a}, s.pmm.InUse a → ∀ y, InFrame (4096 * f) y → ¬ InFrame a y := fun ha y hy hy' =>
    ha.ne_of_free hfree (hy'.symm.trans hy)
  refine ⟨fun y hy => ?_, fun y hy => hne h.dir y hy,
    fun y hy i t ht => hne (h.table i t ht).1 y hy⟩
  obtain rfl : y / pageSize = f := by
    simp only [InFrame, Set.mem_ofPred_eq, pageSize] at hy ⊢
    omega
  rw [Pmm.frameTest_frameMarkUsed]
  simp [hf]

/-- Other bytes in foreign frames keep the map. -/
theorem write_foreign (h : s.PageMap tabs M) (hK : s.Foreign tabs K) {m : Mem}
    (hm : ∀ y, y ∉ K → m y = s.ram y) : { s with ram := m } = s.patched K m ∧
      { s with ram := m }.PageMap tabs M := by
  have e : { s with ram := m } = s.patched K m := by
    rw [Paging.patched, ← Mem.eq_overlay hm]
  exact ⟨e, e ▸ h.patched hK m⟩

/-- **`cmd_map`** prints the same, and does the same to the rest of memory. -/
theorem cmdMap_patched (h : s.PageMap tabs M) (hK : s.Foreign tabs K) {addr : ℕ}
    (ha : addr < 2 ^ 32) :
    (s.patched K r).cmdMap addr = ((s.cmdMap addr).1, (s.cmdMap addr).2.patched K r) := by
  have hv := pageOf_lt ha
  have halign := dvd_pageOf ha
  unfold cmdMap
  dsimp only
  rw [h.pagingTranslate_patched hK hv, patched_pmm, patched_with_pmm]
  generalize pageOf addr = virt at hv halign
  by_cases h0 : virt = 0
  · rw [if_pos h0, if_pos h0]
  by_cases h1 : s.pagingTranslate virt ≠ pageUnmapped
  · rw [if_neg h0, if_neg h0, if_pos h1, if_pos h1]
  rw [if_neg h0, if_neg h0, if_neg h1, if_neg h1]
  rcases h.sound.pmmAllocFrame_spec with ⟨e, -⟩ | ⟨f, hf0, hf, e⟩
  · rw [e, if_pos rfl, if_pos rfl]
  have hmarked := h.frameMarkUsed f
  have hKm := foreign_frameMarkUsed hK f
  have hphys : 4096 * f / pageSize < (s.pmm.frameMarkUsed f).totalFrames := by
    rw [Nat.mul_div_cancel_left f (by decide), (s.pmm.frameMarkUsed_shape f).2.1]
    exact hf.1.1
  have hne : ¬ 4096 * f = 0 := by omega
  rw [e]
  dsimp only
  rw [if_neg hne, if_neg hne, hmarked.pagingMap_patched hKm hv]
  rcases hmarked.pagingMap_spec hv hphys pageWrite with ⟨em, -⟩ | ⟨t, tabs', em, hmap, hinst, hboot⟩
  · rw [em]
    dsimp only
    rw [if_pos rfl, if_pos rfl]
    rfl
  -- the probe goes to the frame just mapped, which was free
  have hKt := foreign_installed hKm hinst hboot.1
  have htrans := translate_mapFresh h hv halign hf.1.1 hmap
  have hword : ∀ y, 4096 * f ≤ y → y < 4096 * f + 4 → y ∉ K := fun y h1 h2 =>
    notMem_of_free hK hf.1.2 h1 (by simp only [pageSize]; omega)
  have hprobe : { t.patched K r with ram := (t.patched K r).ram.write32 (4096 * f) 0x1234ABCD } =
      { t with ram := t.ram.write32 (4096 * f) 0x1234ABCD }.patched K r := by
    simp only [Paging.patched]
    rw [Mem.overlay_write32 hword]
  obtain ⟨-, hu⟩ :=
    hmap.write_foreign (foreign_installed (foreign_fresh h hf.1.1 hf.1.2) hinst hboot.1)
    (m := t.ram.write32 (4096 * f) 0x1234ABCD) fun y hy => Mem.write32_apply_of_disjoint _ _ (by
      simp only [InFrame, Set.mem_ofPred_eq, pageSize] at hy
      omega)
  have htransu : { t with ram := t.ram.write32 (4096 * f) 0x1234ABCD }.pagingTranslate virt =
    4096 * f :=
    translate_mapFresh h hv halign hf.1.1 hu
  rw [em]
  dsimp only
  rw [if_neg Nat.one_ne_zero, if_neg Nat.one_ne_zero, hmap.pagingTranslate_patched hKt hv, htrans,
    hprobe, hu.pagingTranslate_patched ⟨hKt.used, hKt.dir, hKt.table⟩ hv, htransu,
    Mem.read32_write32_same, Mem.read32_write32_same]

/-- **`cmd_unmap`** prints the same, and does the same to the rest of memory. -/
theorem cmdUnmap_patched (h : s.PageMap tabs M) (hK : s.Foreign tabs K) {addr : ℕ}
    (ha : addr < 2 ^ 32) :
    (s.patched K r).cmdUnmap addr = ((s.cmdUnmap addr).1, (s.cmdUnmap addr).2.patched K r) := by
  have hv := pageOf_lt ha
  unfold cmdUnmap
  dsimp only
  rw [h.pagingTranslate_patched hK hv, h.pagingUnmap_patched hK hv, patched_identityEnd]
  split_ifs <;> rfl

end PageMap

end Paging

end JarvisOS
