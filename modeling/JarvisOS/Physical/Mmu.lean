import JarvisOS.Foundations.LookupCache
import JarvisOS.Physical.PageRuns

/-!
# The memory management unit

Once paging is on, every access of the kernel goes through the processor's own walk of the page
tables, or through its translation cache. `mmuWalk` is the walk; `paging_translate` makes it by
hand. The cache fills itself at any time and does not see the kernel's stores, which is why
`paging_map` and `paging_unmap` end with `invlpg`. Here the two functions are the lists of their
stores and of this instruction, and the cache acts between any two of them.

Between the calls every access goes where `paging_translate` says, and faults exactly where that is
`PAGE_UNMAPPED`; during a call this may fail for the page that the call is about, and for no other
(`tlb_coherent`).
-/

namespace JarvisOS

open Foundations

/-- The number of a page. -/
abbrev PageNumber : Type := Fin (2 ^ 20)

/-- The page that contains an address. -/
def pageNumber (v : ℕ) : PageNumber := Fin.ofNat (2 ^ 20) (v / pageSize)

theorem pageNumber_val {v : ℕ} (hv : v < 2 ^ 32) : (pageNumber v).val = v / pageSize := by
  rw [pageNumber, Fin.val_ofNat]
  exact Nat.mod_eq_of_lt (by simp only [pageSize]; omega)

/-- The processor's walk for a page, from the directory that `CR3` names: the address of the page's
frame, or `none` if one of the two entries is not present. Pages are of 4 KiB. In the kernel's mode,
with write protection off, the other bits of the entries do not matter. -/
def mmuWalk (ram : Mem) (cr3 : ℕ) (page : PageNumber) : Option ℕ :=
  let pde := ram.read32 (cr3 / pageSize * pageSize + 4 * (page.val / 1024))
  let pte := ram.read32 (pde / pageSize * pageSize + 4 * (page.val % 1024))
  if pde % 2 = 0 ∨ pte % 2 = 0 then none else some (pte / pageSize * pageSize)

section Walk

variable {ram : Mem} {cr3 : ℕ} {page : PageNumber} {pde : ℕ}

theorem mmuWalk_of_absent
    (h : ram.read32 (cr3 / pageSize * pageSize + 4 * (page.val / 1024)) = pde)
      (hpde : pde % 2 = 0) :
    mmuWalk ram cr3 page = none := by
  subst h
  exact if_pos (Or.inl hpde)

theorem mmuWalk_of_present
    (h : ram.read32 (cr3 / pageSize * pageSize + 4 * (page.val / 1024)) = pde)
      (hpde : pde % 2 = 1) :
    mmuWalk ram cr3 page =
      if ram.read32 (pde / pageSize * pageSize + 4 * (page.val % 1024)) % 2 = 0 then none
      else some
        (ram.read32 (pde / pageSize * pageSize + 4 * (page.val % 1024)) / pageSize * pageSize) := by
  subst h
  rw [mmuWalk]
  simp only [hpde, one_ne_zero, false_or]

theorem link_frame (f : ℕ) : (4096 * f + 3) / pageSize * pageSize = 4096 * f := by
  simp only [pageSize]
  omega

end Walk

namespace Paging

/-- The walk of the processor, with `CR3` as `paging_init` has loaded it. -/
def mmuLook (s : Paging) (page : PageNumber) : Option ℕ := mmuWalk s.ram s.dirPhys page

/-- The physical address of an address, if its page is mapped. -/
def physical (s : Paging) (v : ℕ) : Option ℕ :=
  if s.pagingTranslate v = pageUnmapped then none else some (s.pagingTranslate v)

/-! ## Stores and `invlpg` -/

/-- The stores of `memset(frame, 0, PAGE_SIZE)`. -/
def zeroEvents (frame : ℕ) (s : Paging) : List (CacheEvent Paging PageNumber) :=
  (List.range pageSize).map fun i => .store { s with ram := s.ram.memset frame 0 (i + 1) }

/-- `get_table` with `create`. -/
def getTableEvents (virt : ℕ) (s : Paging) : List (CacheEvent Paging PageNumber) :=
  if s.dirEntry (dirIndex virt) &&& pagePresent ≠ 0 then []
  else
    let frame := s.pmm.pmmAllocFrame.1
    let taken := { s with pmm := s.pmm.pmmAllocFrame.2 }
    if frame = 0 then [.store taken]
    else if frame ≥ s.identityEnd then
      [.store taken, .store { taken with pmm := taken.pmm.pmmFreeFrame frame }]
    else .store taken :: zeroEvents frame taken ++ [.store (s.getTable virt true).2]

/-- `paging_map`. -/
def pagingMapEvents (virt phys flags : ℕ) (s : Paging) : List (CacheEvent Paging PageNumber) :=
  s.getTableEvents virt ++
    if (s.getTable virt true).1 = 0 then []
    else [.store (s.pagingMap virt phys flags).2, .remove (pageNumber virt)]

/-- `paging_unmap`. -/
def pagingUnmapEvents (virt : ℕ) (s : Paging) : List (CacheEvent Paging PageNumber) :=
  if (s.pagingUnmap virt).1 = 0 then []
  else [.store (s.pagingUnmap virt).2, .remove (pageNumber virt)]

/-! ## `CR3` -/

/-- The variable `page_directory` and the register `CR3` name the same frame. -/
def Loaded (s : Paging) : Prop := s.dirPhys = s.pageDirectory

theorem Loaded.congr {s t : Paging} (h : Loaded s) (hst : SameBoot s t) : Loaded t :=
  hst.2.1.trans (Eq.trans h hst.1.symm)

theorem getTable_sameBoot (virt : ℕ) (create : Bool) (s : Paging) :
    SameBoot s (s.getTable virt create).2 := by
  unfold getTable
  simp only
  split_ifs <;> exact ⟨rfl, rfl, rfl, rfl⟩

theorem pagingMap_sameBoot (virt phys flags : ℕ) (s : Paging) :
    SameBoot s (s.pagingMap virt phys flags).2 := by
  have h := getTable_sameBoot virt true s
  unfold pagingMap
  simp only
  split_ifs <;> exact h

theorem pagingUnmap_sameBoot (virt : ℕ) (s : Paging) : SameBoot s (s.pagingUnmap virt).2 := by
  have h := getTable_sameBoot virt false s
  unfold pagingUnmap
  simp only
  split_ifs <;> exact h

theorem identityLoop_sameBoot (pages addr : ℕ) (s : Paging) :
    SameBoot s (identityLoop pages addr s).2 := by
  induction pages generalizing addr s with
  | zero => exact .refl s
  | succ pages ih =>
    have h := pagingMap_sameBoot addr addr pageWrite s
    unfold identityLoop
    simp only
    split_ifs
    · exact h
    · exact h.trans (ih _ _)

theorem loaded_bootPaging (mm : MemMap) (fs : FrameState) (m : Mem)
    (hen : (bootPaging mm fs m).enabled ≠ 0) : Loaded (bootPaging mm fs m) := by
  unfold bootPaging pagingInit at *
  simp only at *
  split_ifs at * with h0 hall
  · exact absurd rfl hen
  · obtain ⟨hdir, hphys, -⟩ :=
      identityLoop_sameBoot (identityWindow mm.highest.toNat / pageSize) 0 _
    exact hphys.trans hdir.symm
  · obtain ⟨hdir, hphys, -⟩ :=
      identityLoop_sameBoot (identityWindow mm.highest.toNat / pageSize) 0 _
    exact hphys.trans hdir.symm

/-! ## The walk reads the map -/

namespace PageMap

variable {s t : Paging} {tabs M : ℕ → Option ℕ} {v : ℕ}

/-- **The processor's walk** reads the map that the tables represent. -/
theorem mmuLook_eq (h : s.PageMap tabs M) (hl : Loaded s) (page : PageNumber) :
    s.mmuLook page = (M page.val).map fun p => p / pageSize * pageSize := by
  have hi : page.val / 1024 < 1024 := by have := page.isLt; omega
  have hj : page.val % 1024 < 1024 := Nat.mod_lt _ (by decide)
  have hpage : page.val / 1024 * 1024 + page.val % 1024 = page.val := by omega
  have hdir : s.dirPhys / pageSize * pageSize = s.pageDirectory := by
    obtain ⟨f, -, -, hf, -⟩ := h.dir
    have hloaded : s.dirPhys = s.pageDirectory := hl
    have hdvd : pageSize ∣ s.pageDirectory := ⟨f, hf⟩
    rw [hloaded, Nat.div_mul_cancel hdvd]
  have hpde := h.tables.dir_entry _ hi
  rw [← hdir] at hpde
  rcases ht : tabs (page.val / 1024) with _ | a
  · have hnone := h.eq_none_of_tabs ht hj
    rw [hpage] at hnone
    rw [ht] at hpde
    rw [mmuLook, mmuWalk_of_absent hpde rfl, hnone]
    rfl
  · obtain ⟨f, -, -, rfl, -⟩ := (h.table _ _ ht).1
    have hpte := h.tables.tbl_entry _ _ ht _ hj
    have hentry : page.val / 1024 * pageFormat.entries + page.val % 1024 = page.val := hpage
    have hlink : s.ram.read32 (s.dirPhys / pageSize * pageSize + 4 * (page.val / 1024)) =
      4096 * f + 3 := by
      rw [hpde, ht]
      rfl
    rw [hentry] at hpte
    rw [mmuLook, mmuWalk_of_present hlink (by omega), link_frame]
    rcases hM : M page.val with _ | p
    · rw [hM] at hpte
      have hzero : s.ram.read32 (4096 * f + 4 * (page.val % 1024)) = 0 := hpte
      rw [hzero]
      rfl
    · rw [hM] at hpte
      obtain ⟨hodd, hsame⟩ := hpte
      rw [if_neg (by rw [hodd]; exact Nat.one_ne_zero), hsame]
      rfl

/-- **`paging_translate` agrees with the processor.** -/
theorem physical_eq (h : s.PageMap tabs M) (hl : Loaded s) (hv : v < 2 ^ 32) :
    (s.mmuLook (pageNumber v)).map (· + v % pageSize) = s.physical v := by
  have hiff := h.pagingTranslate_eq_unmapped hv
  have htrans := h.pagingTranslate_eq hv
  rw [h.mmuLook_eq hl, pageNumber_val hv, physical]
  rcases hM : M (v / pageSize) with _ | p
  · rw [if_pos (hiff.2 hM)]
    rfl
  · have hne : M (v / pageSize) ≠ none := by simp [hM]
    have htotal := h.sound.sized.total_lt
    have hp := (h.backed _ _ hM).2.1
    have hlow : v &&& 0xFFF = v % 4096 := and_mask_eq_mod v 12
    have hframe : frameOf p = 4096 * (p / 4096) := by
      rw [frameOf_eq (by simp only [pageSize] at hp; omega), Nat.mul_comm]
    rw [hM, Option.elim, hlow, hframe, frame_or_flags _ (Nat.mod_lt _ (by decide)), Nat.mul_comm]
      at htrans
    rw [if_neg fun h0 => hne (hiff.1 h0), htrans]
    rfl

/-! ## What the stores do to the walk -/

open CacheEvent

/-- Filling a free frame with zeros keeps the map. -/
theorem zeroed_frame (h : s.PageMap tabs M) {f n : ℕ} (h0 : f ≠ 0) (hf : f < s.pmm.totalFrames)
    (hfree : s.pmm.frameTest f = false) (hn : n ≤ pageSize) :
    PageMap { s with pmm := s.pmm.frameMarkUsed f, ram := s.ram.memset (4096 * f) 0 n } tabs M := by
  refine h.congr rfl rfl rfl rfl (h.sound.frameMarkUsed f) (s.pmm.frameMarkUsed_shape f).2.1 ?_
  intro a _ ha
  have hkeep := ha.frameMarkUsed f
  refine ⟨hkeep, fun y h1 h2 => ?_⟩
  have hapart := (Pmm.inUse_frameMarkUsed h0 hf).apart hkeep (ha.ne_of_free hfree).symm
  simp only [TableFormat.Apart, pageFormat_bytes] at hapart
  exact Mem.memset_apply_of_disjoint _ _ (by omega)

/-- The stores of `get_table` leave the walk as it is. -/
theorem getTableEvents_same (h : s.PageMap tabs M) (hl : Loaded s) (hv : v < 2 ^ 32) {s' : Paging}
    (hs : .store s' ∈ s.getTableEvents v) : s'.mmuLook = s.mmuLook := by
  unfold getTableEvents at hs
  simp only at hs
  split_ifs at hs with hpresent h0 hhigh
  · exact absurd hs List.not_mem_nil
  · rw [List.mem_singleton] at hs
    rw [(CacheEvent.store.inj hs)]
    rfl
  · simp only [List.mem_cons, List.not_mem_nil, or_false, CacheEvent.store.injEq] at hs
    rcases hs with rfl | rfl
    · rfl
    · rfl
  · have ht : tabs (dirIndex v) = none := by
      by_contra hne
      obtain ⟨a, ha⟩ := Option.ne_none_iff_exists'.1 hne
      have hiff := (h.dirEntry_present (dirIndex_lt hv)).1
      exact hpresent (hiff.2 (by rw [ha]; rfl))
    rcases h.sound.pmmAllocFrame_spec with ⟨e, -⟩ | ⟨f, hf0, hf, e⟩
    · exact absurd (congrArg Prod.fst e) h0
    obtain ⟨-, hno⟩ | ⟨g, hg0, hg, hlow, eg⟩ := h.getTable_create hv ht
    · rw [e] at hhigh
      exact absurd (hno f hf) hhigh
    obtain rfl := hf.unique hg
    rw [e, eg, List.cons_append, List.mem_cons, List.mem_append, List.mem_singleton] at hs
    simp only [CacheEvent.store.injEq] at hs
    rcases hs with rfl | hs | rfl
    · rfl
    · -- the frame that is filled with zeros is nobody's yet
      obtain ⟨i, hi, e⟩ := List.mem_map.1 hs
      obtain rfl := CacheEvent.store.inj e
      have hmap := h.zeroed_frame hf0 hf.1.1 hf.1.2 (Nat.succ_le_of_lt (List.mem_range.1 hi))
      funext page
      rw [h.mmuLook_eq hl]
      exact hmap.mmuLook_eq hl page
    · have hwith := h.withTable_pageMap (dirIndex_lt hv) ht hg0 hg.1.1 hg.1.2 hlow
      funext page
      rw [h.mmuLook_eq hl, hwith.mmuLook_eq (hl.congr ⟨rfl, rfl, rfl, rfl⟩)]

theorem lastState_getTableEvents (s : Paging) (virt : ℕ) :
    lastState s (s.getTableEvents virt) = (s.getTable virt true).2 := by
  unfold getTableEvents
  by_cases hpresent : s.dirEntry (dirIndex virt) &&& pagePresent ≠ 0
  · rw [if_pos hpresent]
    simp only [lastState, getTable]
    rw [if_pos hpresent]
  simp only
  rw [if_neg hpresent]
  split_ifs with h0 hhigh
  · simp only [lastState, getTable]
    rw [if_neg hpresent, if_neg (by decide), if_pos h0]
  · simp only [lastState, getTable]
    rw [if_neg hpresent, if_neg (by decide), if_neg h0, if_pos hhigh]
  · rw [lastState_append]
    rfl

/-- A change of the map at one page leaves what the walk finds for the others. -/
theorem mmuLook_update (h : s.PageMap tabs M) (hl : Loaded s) (hv : v < 2 ^ 32)
    {tabs' : ℕ → Option ℕ}
    {o : Option ℕ} (ht : t.PageMap tabs' (Function.update M (v / pageSize) o)) (hlt : Loaded t) :
    ∀ page ≠ pageNumber v, ∀ frame, s.mmuLook page = some frame → t.mmuLook page = some frame := by
  intro page hne frame hlook
  rw [h.mmuLook_eq hl] at hlook
  rw [ht.mmuLook_eq hlt, Function.update_of_ne]
  · exact hlook
  · exact fun e => hne (Fin.ext (e.trans (pageNumber_val hv).symm))

/-- **`paging_map`**: nothing is stale after it, and on the way nothing but its page. -/
theorem pagingMapEvents_spec (h : s.PageMap tabs M) (hl : Loaded s) (hv : v < 2 ^ 32) {phys : ℕ}
    (hp : phys / pageSize < s.pmm.totalFrames) (flags : ℕ) :
    lastState s (s.pagingMapEvents v phys flags) = (s.pagingMap v phys flags).2 ∧
      staleAfter mmuLook s ∅ (s.pagingMapEvents v phys flags) = ∅ ∧
      ∀ pre, pre <+: s.pagingMapEvents v phys flags → staleAfter mmuLook s ∅ pre ⊆
        {pageNumber v} := by
  have hkeeps : KeepsValues mmuLook s (s.getTableEvents v) :=
    keepsValues_of_same fun s' hs => h.getTableEvents_same hl hv hs
  have hlast := lastState_getTableEvents s v
  unfold pagingMapEvents
  by_cases h0 : (s.getTable v true).1 = 0
  · rw [if_pos h0, List.append_nil]
    refine ⟨?_, Set.subset_empty_iff.1 hkeeps.staleAfter_subset, fun pre hpre => ?_⟩
    · rw [hlast]
      simp only [pagingMap]
      rw [if_pos h0]
    · exact (hkeeps.of_prefix hpre).staleAfter_subset.trans (Set.empty_subset _)
  rw [if_neg h0]
  obtain ⟨e, -, -⟩ | ⟨t, tabs', e, hmap, -, hboot⟩ := h.pagingMap_spec hv hp flags
  · -- `paging_map` returns `0` only without a table
    simp only [pagingMap] at e
    rw [if_neg h0] at e
    exact absurd (congrArg Prod.fst e) Nat.one_ne_zero
  have hsame : (lastState s (s.getTableEvents v)).mmuLook = s.mmuLook := by
    rw [hlast]
    rcases ht : tabs (dirIndex v) with _ | a
    · rcases h.getTable_create hv ht with ⟨eg, -⟩ | ⟨g, hg0, hg, hlow, eg⟩
      · rw [eg]
      · have hwith := h.withTable_pageMap (dirIndex_lt hv) ht hg0 hg.1.1 hg.1.2 hlow
        funext page
        rw [eg, h.mmuLook_eq hl]
        exact hwith.mmuLook_eq hl page
    · rw [h.getTable_of_some hv ht]
  obtain ⟨hstale, hpre⟩ := staleAfter_keeps_change_remove (k := pageNumber v) (t := t) hkeeps (by
    rw [hsame]
    exact h.mmuLook_update hl hv hmap (hl.congr hboot))
  rw [e]
  refine ⟨?_, hstale, hpre⟩
  rw [lastState_append]
  rfl

/-- **`paging_unmap`**: the same. -/
theorem pagingUnmapEvents_spec (h : s.PageMap tabs M) (hl : Loaded s) (hv : v < 2 ^ 32) :
    lastState s (s.pagingUnmapEvents v) = (s.pagingUnmap v).2 ∧
      staleAfter mmuLook s ∅ (s.pagingUnmapEvents v) = ∅ ∧
      ∀ pre, pre <+: s.pagingUnmapEvents v → staleAfter mmuLook s ∅ pre ⊆ {pageNumber v} := by
  unfold pagingUnmapEvents
  rcases h.pagingUnmap_spec hv with ⟨-, e⟩ | ⟨-, t, e, -, hboot, hmap⟩
  · rw [e, if_pos rfl]
    refine ⟨rfl, rfl, fun pre hpre => ?_⟩
    rw [List.prefix_nil.1 hpre]
    exact Set.empty_subset _
  · rw [e, if_neg Nat.one_ne_zero]
    have hnil : KeepsValues mmuLook s [] := trivial
    obtain ⟨hstale, hpre⟩ := staleAfter_keeps_change_remove (k := pageNumber v) (t := t) hnil
      (h.mmuLook_update hl hv hmap (hl.congr hboot))
    exact ⟨rfl, hstale, hpre⟩

end PageMap

end Paging

/-! ## Runs -/

/-- The page system and the translation cache. -/
structure MmuSystem where
  pages : PageSystem
  tlb : Set (PageNumber × ℕ)

/-- The state of the paging code. -/
abbrev MmuSystem.paging (q : MmuSystem) : Paging := q.pages.paging

/-- One step, with the cache acting all the while. -/
inductive MmuStep : MmuSystem → MmuSystem → Prop
  | map (q : MmuSystem) {v p : ℕ} (flags : ℕ) (hv : q.paging.identityEnd ≤ v) (hv' : v < 2 ^ 32)
      (hp : p / pageSize < q.paging.pmm.pmmTotalFrames) {t : Paging} {tlb : Set (PageNumber × ℕ)}
      (h : Evolves Paging.mmuLook q.paging q.tlb (q.paging.pagingMapEvents v p flags) t tlb) :
      MmuStep q ⟨⟨t, if (q.paging.pagingMap v p flags).1 = 1 then
        Function.update q.pages.pages (v / pageSize) (some p) else q.pages.pages,
          q.pages.held⟩, tlb⟩
  | unmap (q : MmuSystem) {v : ℕ} (hv : q.paging.identityEnd ≤ v) (hv' : v < 2 ^ 32) {t : Paging}
      {tlb : Set (PageNumber × ℕ)}
      (h : Evolves Paging.mmuLook q.paging q.tlb (q.paging.pagingUnmapEvents v) t tlb) :
      MmuStep q ⟨⟨t, if (q.paging.pagingUnmap v).1 = 1 then
        Function.update q.pages.pages (v / pageSize) none else q.pages.pages, q.pages.held⟩, tlb⟩
  /-- Someone else takes a frame, gives one back, or writes memory outside the tables. -/
  | other (q : MmuSystem) {r : PageSystem} (hs : PageStep q.pages r)
      (hpages : r.pages = q.pages.pages)
      (hboot : Paging.SameBoot q.paging r.paging) {tlb : Set (PageNumber × ℕ)}
      (h : Evolves Paging.mmuLook q.paging q.tlb [.store r.paging] r.paging tlb) : MmuStep q
        ⟨r, tlb⟩

/-- The processor has just loaded `CR3` and turned paging on: the cache is empty. -/
def MmuStarted (q : MmuSystem) : Prop := PageStarted q.pages ∧ q.tlb = ∅

/-- The states reached after `paging_init`. -/
def MmuReach : MmuSystem → Prop := Reach MmuStarted MmuStep

/-- **The invariant**: the page system's, and a cache that agrees with the tables. -/
structure MmuInv (q : MmuSystem) (tabs : ℕ → Option ℕ) : Prop where
  pages : PageInv q.pages tabs
  loaded : q.paging.Loaded
  fresh : Fresh q.paging.mmuLook q.tlb ∅

namespace MmuInv

variable {q r : MmuSystem} {tabs : ℕ → Option ℕ}

theorem started (h : MmuStarted q) : ∃ tabs, MmuInv q tabs := by
  obtain ⟨hstart, htlb⟩ := h
  obtain ⟨tabs, hinv⟩ := PageInv.started hstart
  obtain ⟨img, mm, ram, fs, m, -, hq, hen, -⟩ := hstart
  refine ⟨tabs, hinv, ?_, ?_⟩
  · have hloaded := Paging.loaded_bootPaging mm fs m (hq ▸ hen)
    rwa [← hq] at hloaded
  · rw [htlb]
    exact .empty _ _

/-- **Every step keeps the invariant.** -/
theorem step (h : MmuInv q tabs) (hs : MmuStep q r) : ∃ tabs', MmuInv r tabs' := by
  obtain ⟨hpages, hl, hfresh⟩ := h
  cases hs with
  | @map v p flags hv hv' hp t tlb hev =>
    obtain ⟨rfl, hnext⟩ := hev.fresh hfresh
    obtain ⟨hlast, hstale, -⟩ := hpages.refines.pagingMapEvents_spec hl hv' hp flags
    rw [hstale] at hnext
    rw [hlast] at hnext ⊢
    obtain ⟨tabs', hinv⟩ := hpages.map flags hv hv' hp
    exact ⟨tabs', hinv, hl.congr (Paging.pagingMap_sameBoot ..), hnext⟩
  | @unmap v hv hv' t tlb hev =>
    obtain ⟨rfl, hnext⟩ := hev.fresh hfresh
    obtain ⟨hlast, hstale, -⟩ := hpages.refines.pagingUnmapEvents_spec hl hv'
    rw [hstale] at hnext
    rw [hlast] at hnext ⊢
    exact ⟨tabs, hpages.unmap hv hv', hl.congr (Paging.pagingUnmap_sameBoot ..), hnext⟩
  | @other r hs hkeep hboot tlb hev =>
    obtain ⟨tabs', hinv⟩ := hpages.step hs
    have hl' := hl.congr hboot
    refine ⟨tabs', hinv, hl', ?_⟩
    have hsame : r.paging.mmuLook = q.paging.mmuLook := by
      funext page
      rw [hinv.refines.mmuLook_eq hl', hpages.refines.mmuLook_eq hl, hkeep]
    obtain ⟨-, hnext⟩ := hev.fresh hfresh
    rw [CacheEvent.staleAfter_store_of_keeps fun page frame hlook => hsame ▸ hlook] at hnext
    exact hnext

end MmuInv

theorem MmuReach.inv {q : MmuSystem} (h : MmuReach q) : ∃ tabs, MmuInv q tabs :=
  h.invariant (I := fun q => ∃ tabs, MmuInv q tabs) (fun _ h0 => MmuInv.started h0)
    fun _ _ _ ⟨_, hinv⟩ hs => hinv.step hs

/-- Where the processor takes an access to the address `v`: by a pair of the cache if there is one,
or by the walk; `none` is a page fault. -/
inductive MmuSystem.Answers (q : MmuSystem) (v : ℕ) : Option ℕ → Prop
  | hit {frame : ℕ} (h : (pageNumber v, frame) ∈ q.tlb) : Answers q v (some (frame + v % pageSize))
  | walk : Answers q v ((q.paging.mmuLook (pageNumber v)).map (· + v % pageSize))

/-- **The translation cache never misleads the kernel.** In every state reached after `paging_init`,
by calls of `paging_map` and `paging_unmap` above the identity window and by what others do with
their frames and memory, whatever the cache takes up and drops before, during and after these: every
access of the processor goes where `paging_translate` says, and faults exactly where there is
nothing mapped. After any number of the stores of a call of `paging_map` or `paging_unmap`, each
pair in the cache but those of the page that the call is about is what a walk finds at that
moment. -/
theorem tlb_coherent {q : MmuSystem} (h : MmuReach q) :
    (∀ v < 2 ^ 32, ∀ answer, q.Answers v answer → answer = q.paging.physical v) ∧
    (∀ v p flags, q.paging.identityEnd ≤ v → v < 2 ^ 32 →
      p / pageSize < q.paging.pmm.pmmTotalFrames →
      ∀ es, es <+: q.paging.pagingMapEvents v p flags ∨ es <+: q.paging.pagingUnmapEvents v →
      ∀ t tlb, Evolves Paging.mmuLook q.paging q.tlb es t tlb →
      ∀ e ∈ tlb, e.1 ≠ pageNumber v → t.mmuLook e.1 = some e.2) := by
  obtain ⟨tabs, hpages, hl, hfresh⟩ := h.inv
  constructor
  · intro v hv answer ha
    rw [← hpages.refines.physical_eq hl hv]
    cases ha with
    | hit hmem =>
      rw [hfresh.eq_some hmem]
      rfl
    | walk => rfl
  · intro v p flags hv hv' hp es hes t tlb hev e he hne
    have hsub : CacheEvent.staleAfter Paging.mmuLook q.paging ∅ es ⊆ {pageNumber v} := by
      rcases hes with hes | hes
      · exact (hpages.refines.pagingMapEvents_spec hl hv' hp flags).2.2 es hes
      · exact (hpages.refines.pagingUnmapEvents_spec hl hv').2.2 es hes
    exact (hev.fresh hfresh).2 e he fun hmem => hne (hsub hmem)

/-- On the small machine the page at `0x20000` is mapped to the frame at `0x15000`, and the cache
takes the new pair up. -/
theorem tlb_coherent_small : ∃ q, MmuReach q ∧ q.Answers 0x20123 (some 0x15123) ∧
    q.paging.physical 0x20123 = some 0x15123 := by
  have hpresent : smallPaging.dirEntry (dirIndex 0x20000) &&& pagePresent ≠ 0 := by decide +kernel
  have htable : ¬ (smallPaging.getTable 0x20000 true).1 = 0 := by decide +kernel
  have hevents : smallPaging.pagingMapEvents 0x20000 0x15000 pageWrite =
      [.store (smallPaging.pagingMap 0x20000 0x15000 pageWrite).2,
        .remove (pageNumber 0x20000)] := by
    unfold Paging.pagingMapEvents Paging.getTableEvents
    rw [if_pos hpresent, if_neg htable]
    rfl
  have hlook : (smallPaging.pagingMap 0x20000 0x15000 pageWrite).2.mmuLook (pageNumber 0x20123) =
      some 0x15000 := by decide +kernel
  let start : MmuSystem := ⟨⟨smallPaging, identityPages (smallPaging.identityEnd / pageSize), ∅⟩, ∅⟩
  have hstart : MmuReach start :=
    .start ⟨⟨smallImage, smallMap, fun _ => 0#32, smallFrames, fun _ => 0,
    FrameReach.init _ _ _, rfl, smallPaging_enabled, rfl, by simp [start, smallFrames]⟩, rfl⟩
  have hreach := hstart.next (.map start (v := 0x20000) (p := 0x15000) pageWrite
    (by show smallPaging.identityEnd ≤ 0x20000; decide +kernel) (by decide)
    (by show 0x15000 / pageSize < smallPaging.pmm.pmmTotalFrames; decide +kernel)
    (by
      show Evolves Paging.mmuLook smallPaging ∅
        (smallPaging.pagingMapEvents 0x20000 0x15000 pageWrite) _ _
      rw [hevents]
      exact .store (.remove (.fill hlook (.done _ _)))))
  have hend : ∀ q, MmuReach q → (pageNumber 0x20123, 0x15000) ∈ q.tlb → ∃ q, MmuReach q ∧
      q.Answers 0x20123 (some 0x15123) ∧ q.paging.physical 0x20123 = some 0x15123 :=
        fun q hq hmem =>
    ⟨q, hq, .hit hmem, ((tlb_coherent hq).1 0x20123 (by decide) _ (.hit hmem)).symm⟩
  exact hend _ hreach (Set.mem_insert _ _)

end JarvisOS
