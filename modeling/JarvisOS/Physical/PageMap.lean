import JarvisOS.Foundations.PartialMap
import JarvisOS.Foundations.TwoLevel
import JarvisOS.Physical.FrameExclusive
import JarvisOS.Physical.Paging

/-!
# The page tables refine a finite map

`PageMap s tabs M` says that the page tables in memory represent the map `M` from page numbers to
the physical addresses the pages were mapped with, that `tabs` are the addresses of the tables by
directory index, and that directory and tables are frames in use of their own. `pagingMap` updates
`M` at one page or changes nothing (`PageMap.pagingMap_spec`), `pagingUnmap` removes a page
(`PageMap.pagingUnmap_spec`), and `pagingTranslate` reads `M` (`PageMap.pagingTranslate_eq`).
-/

namespace JarvisOS

open Foundations

/-! ## Bit fields of addresses and entries -/

theorem dirIndex_eq (v : ℕ) : dirIndex v = v / pageSize / 1024 := by
  rw [dirIndex, Nat.shiftRight_eq_div_pow, Nat.div_div_eq_div_mul]
  rfl

theorem tblIndex_eq (v : ℕ) : tblIndex v = v / pageSize % 1024 := by
  rw [tblIndex, Nat.shiftRight_eq_div_pow]
  exact and_mask_eq_mod _ 10

theorem dirIndex_lt {v : ℕ} (hv : v < 2 ^ 32) : dirIndex v < 1024 := by
  rw [dirIndex_eq]
  simp only [pageSize]
  omega

theorem tblIndex_lt (v : ℕ) : tblIndex v < 1024 := by
  rw [tblIndex_eq]
  omega

/-- The two indices of an address are those of its page number. -/
theorem dirIndex_tblIndex (v : ℕ) : dirIndex v * 1024 + tblIndex v = v / pageSize := by
  rw [dirIndex_eq, tblIndex_eq]
  omega

theorem frameOf_eq {e : ℕ} (h : e < 2 ^ 32) : frameOf e = e / pageSize * pageSize :=
  and_lnot32 (k := 12) (by decide) h

theorem and_pagePresent (e : ℕ) : e &&& pagePresent = e % 2 := and_mask_eq_mod e 1

/-- The word `frame | flags` for a frame's address. -/
theorem frame_or_flags (f : ℕ) {fl : ℕ} (h : fl < pageSize) :
    4096 * f ||| fl = 4096 * f + fl := by
  rw [Nat.mul_comm]
  exact or_low (k := 12) f h

/-- The entries of the tables: absent entries are zero, present ones carry a frame. -/
def pageFormat : TableFormat ℕ where
  entries := 1024
  link t := t + 3
  Encodes e o := o.elim (e = 0) fun p => e % 2 = 1 ∧ e / pageSize = p / pageSize
  encodes_zero := rfl

theorem pageFormat_bytes : pageFormat.bytes = pageSize := rfl

/-- The entry that `pagingMap` writes. -/
theorem encodes_entry {phys : ℕ} (h : phys < 2 ^ 32) (flags : ℕ) :
    pageFormat.Encodes (u32 (frameOf phys ||| (flags &&& 0xFFF) ||| pagePresent)) (some phys) := by
  have hfl : (flags &&& 0xFFF) ||| pagePresent < 2 ^ 12 :=
    Nat.or_lt_two_pow (Nat.and_lt_two_pow _ (by decide)) (by decide)
  have hodd : ((flags &&& 0xFFF) ||| pagePresent) % 2 = 1 := by
    rw [Nat.or_mod_two_eq_one]
    exact Or.inr rfl
  rw [Nat.or_assoc, frameOf_eq h, Nat.mul_comm, frame_or_flags _ hfl]
  simp only [pageFormat, Option.elim, pageSize] at *
  rw [u32_of_lt (by omega)]
  omega

namespace Pmm

/-- `a` is the address of a frame in use. -/
def InUse (p : Pmm) (a : ℕ) : Prop :=
  ∃ f, f ≠ 0 ∧ f < p.totalFrames ∧ a = 4096 * f ∧ p.frameTest f = true

variable {p : Pmm} {a b f : ℕ}

/-- Distinct frames do not overlap. -/
theorem InUse.apart (ha : p.InUse a) (hb : p.InUse b) (hne : a ≠ b) : pageFormat.Apart a b := by
  obtain ⟨f, -, -, rfl, -⟩ := ha
  obtain ⟨g, -, -, rfl, -⟩ := hb
  simp only [TableFormat.Apart, pageFormat_bytes, pageSize]
  omega

theorem InUse.ne_of_free (ha : p.InUse a) (hf : p.frameTest f = false) : a ≠ 4096 * f := by
  rintro rfl
  obtain ⟨g, -, -, e, hg⟩ := ha
  obtain rfl : f = g := by omega
  simp [hf] at hg

theorem InUse.frameMarkUsed (ha : p.InUse a) (f : ℕ) : (p.frameMarkUsed f).InUse a := by
  obtain ⟨g, h0, hlt, rfl, hg⟩ := ha
  refine ⟨g, h0, (p.frameMarkUsed_shape f).2.1 ▸ hlt, rfl, ?_⟩
  rw [frameTest_frameMarkUsed, hg, Bool.true_or]

theorem InUse.frameMarkFree (ha : p.InUse a) (hne : a ≠ 4096 * f) :
    (p.frameMarkFree f).InUse a := by
  obtain ⟨g, h0, hlt, rfl, hg⟩ := ha
  refine ⟨g, h0, (p.frameMarkFree_shape f).2.1 ▸ hlt, rfl, ?_⟩
  rw [frameTest_frameMarkFree, hg]
  simp [show g ≠ f by omega]

/-- The frame just handed out is in use. -/
theorem inUse_frameMarkUsed (h0 : f ≠ 0) (hf : f < p.totalFrames) :
    (p.frameMarkUsed f).InUse (4096 * f) := by
  refine ⟨f, h0, (p.frameMarkUsed_shape f).2.1 ▸ hf, rfl, ?_⟩
  rw [frameTest_frameMarkUsed]
  simp [hf]

theorem InUse.pos (ha : p.InUse a) : a ≠ 0 := by
  obtain ⟨f, h0, -, rfl, -⟩ := ha
  omega

end Pmm

/-! ## The relation between the tables and the map -/

namespace Paging

/-- The variables that `paging_init` sets and nothing changes later. -/
def SameBoot (s t : Paging) : Prop :=
  t.pageDirectory = s.pageDirectory ∧ t.dirPhys = s.dirPhys ∧ t.identityEnd = s.identityEnd ∧
    t.enabled = s.enabled

theorem SameBoot.refl (s : Paging) : SameBoot s s := ⟨rfl, rfl, rfl, rfl⟩

theorem SameBoot.trans {s t u : Paging} (h : SameBoot s t) (h' : SameBoot t u) : SameBoot s u :=
  ⟨h'.1.trans h.1, h'.2.1.trans h.2.1, h'.2.2.1.trans h.2.2.1, h'.2.2.2.trans h.2.2.2⟩

/-- **The page tables represent the map `M`**, by page numbers, with tables at `tabs`. -/
structure PageMap (s : Paging) (tabs M : ℕ → Option ℕ) : Prop where
  sound : s.pmm.Sound
  tables : pageFormat.Tables s.ram s.pageDirectory tabs M
  dir : s.pmm.InUse s.pageDirectory
  table : ∀ i t, tabs i = some t → s.pmm.InUse t ∧ t < s.identityEnd
  backed : ∀ page p, M page = some p →
    page < 2 ^ 20 ∧ p / pageSize < s.pmm.totalFrames ∧ (tabs (page / 1024)).isSome
  tableCount : s.tableCount = domSize 1024 tabs
  mappedPages : s.mappedPages = domSize (2 ^ 20) M

namespace PageMap

variable {s t : Paging} {tabs M : ℕ → Option ℕ} {v w a : ℕ}

/-- The directory's entry for an address. -/
theorem dirEntry_eq (h : s.PageMap tabs M) (hv : v < 2 ^ 32) :
    s.dirEntry (dirIndex v) = (tabs (dirIndex v)).elim 0 (· + 3) :=
  h.tables.dir_entry _ (dirIndex_lt hv)

theorem getTable_of_some (h : s.PageMap tabs M) (hv : v < 2 ^ 32) (ht : tabs (dirIndex v) = some a)
    (create : Bool) : s.getTable v create = (a, s) := by
  have he : s.dirEntry (dirIndex v) = a + 3 := by rw [h.dirEntry_eq hv, ht]; rfl
  have hused := (h.table _ _ ht).1
  obtain ⟨f, -, hlt, rfl, -⟩ := id hused
  have hsmall := h.sound.sized.total_lt
  have hframe : frameOf (4096 * f + 3) = 4096 * f := by
    rw [frameOf_eq (by omega)]
    simp only [pageSize]
    omega
  simp only [getTable]
  rw [he, and_pagePresent, if_pos (by omega), hframe]

theorem getTable_lookup_of_none (h : s.PageMap tabs M) (hv : v < 2 ^ 32)
    (ht : tabs (dirIndex v) = none) : s.getTable v false = (0, s) := by
  have he : s.dirEntry (dirIndex v) = 0 := by rw [h.dirEntry_eq hv, ht]; rfl
  simp only [getTable, he]
  rfl

/-- A page without a table is not mapped. -/
theorem eq_none_of_tabs (h : s.PageMap tabs M) {i : ℕ} (ht : tabs i = none) {j : ℕ}
    (hj : j < 1024) :
    M (i * 1024 + j) = none := by
  by_contra hne
  obtain ⟨p, hp⟩ := Option.ne_none_iff_exists'.1 hne
  have := (h.backed _ _ hp).2.2
  rw [show (i * 1024 + j) / 1024 = i by omega, ht] at this
  simp at this

/-- The frame allocator cannot provide a table: no frame is free, or the least free one lies above
the identity window. -/
def NoTableFrame (s : Paging) : Prop :=
  ∀ f, IsLeast {g | g < s.pmm.totalFrames ∧ s.pmm.frameTest g = false} f → s.identityEnd ≤ 4096 * f

/-- The state after the free frame `f` has become the table for directory index `i`. -/
def withTable (s : Paging) (i f : ℕ) : Paging :=
  { s with
    pmm := s.pmm.frameMarkUsed f
    ram := (s.ram.memset (4096 * f) 0 pageSize).write32 (s.pageDirectory + 4 * i) (4096 * f + 3)
    tableCount := u32 (s.tableCount + 1) }

/-- Where the directory has no table, one is created: refused without any change, or the least free
frame becomes the table. -/
theorem getTable_create_of_absent (hs : s.pmm.Sound)
    (he : s.dirEntry (dirIndex v) &&& pagePresent = 0) :
    (s.getTable v true = (0, s) ∧ NoTableFrame s) ∨
      ∃ f, f ≠ 0 ∧ IsLeast {g | g < s.pmm.totalFrames ∧ s.pmm.frameTest g = false} f ∧
        4096 * f < s.identityEnd ∧ s.getTable v true = (4096 * f, withTable s (dirIndex v) f) := by
  simp only [getTable]
  rw [if_neg (not_not.2 he), if_neg (by decide)]
  rcases hs.pmmAllocFrame_spec with ⟨e, hall⟩ | ⟨f, h0, hf, e⟩
  · refine Or.inl ⟨?_, fun f hf => ?_⟩
    · rw [e, if_pos rfl]
    · have := hall f hf.1.1
      simp [hf.1.2] at this
  · simp only [e]
    rw [if_neg (by omega)]
    by_cases hge : 4096 * f ≥ s.identityEnd
    · refine Or.inl ⟨?_, fun g hg => hf.unique hg ▸ hge⟩
      rw [if_pos hge, Pmm.pmmFreeFrame_mul, hs.frameMarkFree_frameMarkUsed hf.1.1 hf.1.2]
    · refine Or.inr ⟨f, h0, hf, not_le.1 hge, ?_⟩
      have hor : 4096 * f ||| pagePresent ||| pageWrite = 4096 * f + 3 := by
        rw [Nat.or_assoc]
        exact frame_or_flags f (by decide)
      rw [if_neg hge, hor]
      rfl

/-- **Creating a table** in a state of the page system. -/
theorem getTable_create (h : s.PageMap tabs M) (hv : v < 2 ^ 32) (ht : tabs (dirIndex v) = none) :
    (s.getTable v true = (0, s) ∧ NoTableFrame s) ∨
      ∃ f, f ≠ 0 ∧ IsLeast {g | g < s.pmm.totalFrames ∧ s.pmm.frameTest g = false} f ∧
        4096 * f < s.identityEnd ∧ s.getTable v true = (4096 * f, withTable s (dirIndex v) f) := by
  have he : s.dirEntry (dirIndex v) = 0 := by rw [h.dirEntry_eq hv, ht]; rfl
  exact getTable_create_of_absent h.sound (by rw [he]; rfl)

/-- A new table keeps the map. -/
theorem withTable_pageMap (h : s.PageMap tabs M) {i f : ℕ} (hi : i < 1024) (ht : tabs i = none)
    (h0 : f ≠ 0) (hf : f < s.pmm.totalFrames) (hfree : s.pmm.frameTest f = false)
    (hlow : 4096 * f < s.identityEnd) :
    (withTable s i f).PageMap (Function.update tabs i (some (4096 * f))) M := by
  have htotal := (s.pmm.frameMarkUsed_shape f).2.1
  have hsmall := h.sound.sized.total_lt
  have hnew : (s.pmm.frameMarkUsed f).InUse (4096 * f) := Pmm.inUse_frameMarkUsed h0 hf
  have hapart : ∀ {a}, s.pmm.InUse a → pageFormat.Apart (4096 * f) a := fun ha =>
    hnew.apart (ha.frameMarkUsed f) (ha.ne_of_free hfree).symm
  refine ⟨h.sound.frameMarkUsed f, ?_, h.dir.frameMarkUsed f, fun j t hj => ?_, fun page p hp => ?_,
    ?_, h.mappedPages⟩
  · exact h.tables.addTable hi ht (fun j hj => h.eq_none_of_tabs ht hj) (hapart h.dir)
      (fun j u hu => hapart (h.table j u hu).1) (by simp only [pageFormat]; omega)
  · by_cases hji : j = i
    · subst hji
      rw [Function.update_self] at hj
      exact Option.some.inj hj ▸ ⟨hnew, hlow⟩
    · rw [Function.update_of_ne hji] at hj
      exact ⟨(h.table j t hj).1.frameMarkUsed f, (h.table j t hj).2⟩
  · obtain ⟨h1, h2, h3⟩ := h.backed page p hp
    refine ⟨h1, htotal.symm ▸ h2, ?_⟩
    by_cases hpi : page / 1024 = i
    · rw [hpi, Function.update_self]
      rfl
    · rwa [Function.update_of_ne hpi]
  · have := domSize_le 1024 tabs
    rw [domSize_update_of_none hi ht]
    exact (congrArg (fun n => u32 (n + 1)) h.tableCount).trans (u32_of_lt (by omega))

/-- What an entry says about its page. -/
theorem tblEntry_encodes (h : s.PageMap tabs M) (ht : tabs (dirIndex v) = some a) :
    pageFormat.Encodes (s.tblEntry a (tblIndex v)) (M (v / pageSize)) := by
  rw [← dirIndex_tblIndex]
  exact h.tables.tbl_entry _ _ ht _ (tblIndex_lt v)

/-- The present bit of an entry tells whether its page is mapped. -/
theorem present_iff (h : s.PageMap tabs M) (ht : tabs (dirIndex v) = some a) :
    s.tblEntry a (tblIndex v) &&& pagePresent = 0 ↔ M (v / pageSize) = none := by
  have he := h.tblEntry_encodes ht
  rw [and_pagePresent]
  cases hM : M (v / pageSize) with
  | none =>
    rw [hM] at he
    rw [show s.tblEntry a (tblIndex v) = 0 from he]
    simp
  | some p =>
    rw [hM] at he
    have := he.1
    simp [this]

/-- The state after the entry of `v` in the table at `a` has been set to `e`. -/
def withEntry (s : Paging) (a v e pages : ℕ) : Paging :=
  { s with ram := s.ram.write32 (a + 4 * tblIndex v) e, mappedPages := pages }

/-- Setting an entry updates the map at its page. -/
theorem withEntry_pageMap (h : s.PageMap tabs M) (hv : v < 2 ^ 32) (ht : tabs (dirIndex v) = some a)
    {e pages : ℕ} {o : Option ℕ} (he : pageFormat.Encodes (u32 e) o)
    (ho : ∀ p, o = some p → p / pageSize < s.pmm.totalFrames)
    (hpages : pages = domSize (2 ^ 20) (Function.update M (v / pageSize) o)) :
    (withEntry s a v e pages).PageMap tabs (Function.update M (v / pageSize) o) := by
  refine ⟨h.sound, ?_, h.dir, h.table, fun page p hp => ?_, h.tableCount, hpages⟩
  · have := h.tables.setEntry ht (tblIndex_lt v) he
    rwa [show dirIndex v * pageFormat.entries + tblIndex v = v / pageSize from
      dirIndex_tblIndex v] at this
  · by_cases hpv : page = v / pageSize
    · subst hpv
      rw [Function.update_self] at hp
      refine ⟨?_, ho p hp, ?_⟩
      · simp only [pageSize]
        omega
      · rw [← dirIndex_eq, ht]
        rfl
    · rw [Function.update_of_ne hpv] at hp
      exact h.backed page p hp

/-- The tables and the allocator after the table for `v` has been found or created. -/
inductive Installed (s : Paging) (tabs : ℕ → Option ℕ) (v : ℕ) : Pmm → (ℕ → Option ℕ) → Prop
  | found (ht : (tabs (dirIndex v)).isSome) : Installed s tabs v s.pmm tabs
  | created {f : ℕ} (ht : tabs (dirIndex v) = none) (h0 : f ≠ 0)
      (hf : IsLeast {g | g < s.pmm.totalFrames ∧ s.pmm.frameTest g = false} f)
      (hlow : 4096 * f < s.identityEnd) :
      Installed s tabs v (s.pmm.frameMarkUsed f)
        (Function.update tabs (dirIndex v) (some (4096 * f)))

/-- Frames that are used stay used. -/
theorem Installed.frameTest {s : Paging} {tabs tabs' : ℕ → Option ℕ} {v : ℕ} {pmm : Pmm}
    (h : Installed s tabs v pmm tabs') {g : ℕ} (hg : s.pmm.frameTest g = true) :
    pmm.frameTest g = true := by
  cases h with
  | found => exact hg
  | created => rw [Pmm.frameTest_frameMarkUsed, hg, Bool.true_or]

/-- Mapping a page whose table exists. -/
theorem pagingMap_of_table (h : s.PageMap tabs M) (hv : v < 2 ^ 32)
    (ht : tabs (dirIndex v) = some a) {u : Paging} {phys : ℕ} (flags : ℕ)
    (hp : phys / pageSize < s.pmm.totalFrames) (hu : u.getTable v true = (a, s)) :
    ∃ t, u.pagingMap v phys flags = (1, t) ∧ t.pmm = s.pmm ∧ SameBoot s t ∧
      t.PageMap tabs (Function.update M (v / pageSize) (some phys)) := by
  have hphys : phys < 2 ^ 32 := by
    have := h.sound.sized.total_lt
    simp only [pageSize] at hp
    omega
  have hpage : v / pageSize < 2 ^ 20 := by
    simp only [pageSize]
    omega
  set e := frameOf phys ||| (flags &&& 0xFFF) ||| pagePresent
  set pages := if s.tblEntry a (tblIndex v) &&& pagePresent = 0 then u32 (s.mappedPages + 1)
    else s.mappedPages with hpages
  have hcount : pages = domSize (2 ^ 20) (Function.update M (v / pageSize) (some phys)) := by
    rw [hpages, h.mappedPages]
    by_cases hM : M (v / pageSize) = none
    · have := domSize_le (2 ^ 20) M
      have hgrow := domSize_update_of_none hpage hM phys
      rw [if_pos ((h.present_iff ht).2 hM), hgrow, u32_of_lt (by omega)]
    · rw [if_neg fun h0 => hM ((h.present_iff ht).1 h0),
        domSize_update_of_some (Option.isSome_iff_ne_none.2 hM)]
  refine ⟨withEntry s a v e pages, ?_, rfl, ⟨rfl, rfl, rfl, rfl⟩,
    h.withEntry_pageMap hv ht (encodes_entry hphys flags)
      (fun p hpp => Option.some.inj hpp ▸ hp) hcount⟩
  simp only [pagingMap]
  rw [hu, if_neg (h.table _ _ ht).1.pos]
  rfl

/-- **`paging_map`** changes nothing and returns `0`, because no frame can become the table that is
missing, or returns `1` and updates the map at the page of `v`. -/
theorem pagingMap_spec (h : s.PageMap tabs M) (hv : v < 2 ^ 32) {phys : ℕ}
    (hp : phys / pageSize < s.pmm.totalFrames) (flags : ℕ) :
    (s.pagingMap v phys flags = (0, s) ∧ tabs (dirIndex v) = none ∧ NoTableFrame s) ∨
      ∃ t tabs', s.pagingMap v phys flags = (1, t) ∧
        t.PageMap tabs' (Function.update M (v / pageSize) (some phys)) ∧
        Installed s tabs v t.pmm tabs' ∧ SameBoot s t := by
  rcases ht : tabs (dirIndex v) with _ | a
  · rcases h.getTable_create hv ht with ⟨e, hno⟩ | ⟨f, h0, hf, hlow, e⟩
    · refine Or.inl ⟨?_, rfl, hno⟩
      simp only [pagingMap]
      rw [e, if_pos rfl]
    · have hwith := h.withTable_pageMap (dirIndex_lt hv) ht h0 hf.1.1 hf.1.2 hlow
      obtain ⟨t, hrun, hpmm, hboot, ht'⟩ := hwith.pagingMap_of_table hv (Function.update_self ..)
        flags (by rwa [show (withTable s (dirIndex v) f).pmm.totalFrames =
          s.pmm.totalFrames from (s.pmm.frameMarkUsed_shape f).2.1]) e
      exact Or.inr ⟨t, _, hrun, ht', hpmm ▸ .created ht h0 hf hlow, hboot⟩
  · obtain ⟨t, hrun, hpmm, hboot, ht'⟩ := h.pagingMap_of_table hv ht flags hp
      (h.getTable_of_some hv ht true)
    exact Or.inr ⟨t, tabs, hrun, ht', hpmm ▸ .found (by rw [ht]; rfl), hboot⟩

/-- **`paging_unmap`** returns `1` exactly when the page was mapped, and removes it from the map. -/
theorem pagingUnmap_spec (h : s.PageMap tabs M) (hv : v < 2 ^ 32) :
    (M (v / pageSize) = none ∧ s.pagingUnmap v = (0, s)) ∨
      (M (v / pageSize)).isSome ∧ ∃ t, s.pagingUnmap v = (1, t) ∧ t.pmm = s.pmm ∧ SameBoot s t ∧
        t.PageMap tabs (Function.update M (v / pageSize) none) := by
  rcases ht : tabs (dirIndex v) with _ | a
  · refine Or.inl ⟨?_, ?_⟩
    · rw [← dirIndex_tblIndex]
      exact h.eq_none_of_tabs ht (tblIndex_lt v)
    · unfold pagingUnmap
      rw [h.getTable_lookup_of_none hv ht, if_pos rfl]
  simp only [pagingUnmap]
  rw [h.getTable_of_some hv ht, if_neg (h.table _ _ ht).1.pos]
  by_cases hM : M (v / pageSize) = none
  · exact Or.inl ⟨hM, if_pos ((h.present_iff ht).2 hM)⟩
  · have hsome := Option.isSome_iff_ne_none.2 hM
    have hcount := domSize_update_none (n := 2 ^ 20) (i := v / pageSize)
      (by simp only [pageSize]; omega) hsome
    have hle := domSize_le (2 ^ 20) M
    refine Or.inr ⟨hsome, withEntry s a v 0 (sub32 s.mappedPages 1), ?_, rfl, ⟨rfl, rfl, rfl, rfl⟩,
      h.withEntry_pageMap hv ht pageFormat.encodes_zero (fun p hp => nomatch hp) ?_⟩
    · rw [if_neg fun h0 => hM ((h.present_iff ht).1 h0)]
      rfl
    · rw [h.mappedPages, sub32_of_le (by omega) (by omega)]
      omega

/-- **`paging_translate`** reads the map. -/
theorem pagingTranslate_eq (h : s.PageMap tabs M) (hw : w < 2 ^ 32) :
    s.pagingTranslate w = (M (w / pageSize)).elim pageUnmapped (frameOf · ||| (w &&& 0xFFF)) := by
  rcases ht : tabs (dirIndex w) with _ | a
  · have hM : M (w / pageSize) = none := by
      rw [← dirIndex_tblIndex]
      exact h.eq_none_of_tabs ht (tblIndex_lt w)
    simp only [pagingTranslate]
    rw [h.getTable_lookup_of_none hw ht, if_pos rfl, hM]
    rfl
  simp only [pagingTranslate]
  rw [h.getTable_of_some hw ht, if_neg (h.table _ _ ht).1.pos]
  have he := h.tblEntry_encodes ht
  cases hM : M (w / pageSize) with
  | none => exact if_pos ((h.present_iff ht).2 hM)
  | some p =>
    have hne : ¬ s.tblEntry a (tblIndex w) &&& pagePresent = 0 := fun h0 => by
      simp [(h.present_iff ht).1 h0] at hM
    rw [hM] at he
    have htotal := h.sound.sized.total_lt
    have hp := (h.backed _ _ hM).2.1
    have hp32 : p < 2 ^ 32 := by
      simp only [pageSize] at hp
      omega
    have hframe : frameOf (s.tblEntry a (tblIndex w)) = frameOf p :=
      (frameOf_eq (Mem.read32_lt _ _)).trans
        ((congrArg (· * pageSize) he.2).trans (frameOf_eq hp32).symm)
    rw [if_neg hne]
    exact congrArg (· ||| (w &&& 0xFFF)) hframe

/-- A mapped page never translates to `PAGE_UNMAPPED`. -/
theorem pagingTranslate_eq_unmapped (h : s.PageMap tabs M) (hw : w < 2 ^ 32) :
    s.pagingTranslate w = pageUnmapped ↔ M (w / pageSize) = none := by
  rw [h.pagingTranslate_eq hw]
  cases hM : M (w / pageSize) with
  | none => simp
  | some p =>
    have htotal := h.sound.sized.total_lt
    have hp := (h.backed _ _ hM).2.1
    have hlow : w &&& 0xFFF < pageSize := Nat.and_lt_two_pow (n := 12) _ (by decide)
    simp only [Option.elim, reduceCtorEq, iff_false]
    simp only [pageSize] at hp hlow
    rw [frameOf_eq (by omega), Nat.mul_comm, frame_or_flags _ hlow]
    simp only [pageSize, pageUnmapped]
    omega

/-- The map is kept when memory changes outside the tables and other frames change hands. -/
theorem congr (h : s.PageMap tabs M) (hdir : t.pageDirectory = s.pageDirectory)
    (hend : t.identityEnd = s.identityEnd) (htables : t.tableCount = s.tableCount)
    (hpages : t.mappedPages = s.mappedPages) (hsound : t.pmm.Sound)
    (htotal : t.pmm.totalFrames = s.pmm.totalFrames)
    (hkeep : ∀ a, a = s.pageDirectory ∨ (∃ i, tabs i = some a) → s.pmm.InUse a → t.pmm.InUse a ∧
      ∀ y, a ≤ y → y < a + pageSize → t.ram y = s.ram y) : t.PageMap tabs M := by
  have hd := hkeep _ (Or.inl rfl) h.dir
  have ht : ∀ i u, tabs i = some u → _ := fun i u hu => hkeep u (Or.inr ⟨i, hu⟩) (h.table i u hu).1
  refine ⟨hsound, ?_, hdir.symm ▸ hd.1,
    fun i u hu => ⟨(ht i u hu).1, hend.symm ▸ (h.table i u hu).2⟩,
    fun page p hp => ?_, htables.trans h.tableCount, hpages.trans h.mappedPages⟩
  · rw [hdir]
    exact h.tables.congr hd.2 fun i u hu => (ht i u hu).2
  · rw [htotal]
    exact h.backed page p hp

end PageMap

end Paging

end JarvisOS
