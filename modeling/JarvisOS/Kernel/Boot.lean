import JarvisOS.Kernel.HeapInRam
import JarvisOS.Kernel.Timer
import JarvisOS.Physical.Counting
import JarvisOS.Physical.MemoryMap
import JarvisOS.Physical.Mmu
import Mathlib.Data.Set.Card

/-!
# Booting

`kernel_main` initialises the memory map, the frame allocator, the page tables, the heap and the
scheduler one after the other, and goes on when one of them fails. It takes one frame for the
directory, one for each table of the identity map, one for the table of the heap and one for each
page of the heap, the least free one each time. So whether paging comes on and the heap becomes
ready depends on two numbers only, the free frames and the free frames in the identity window
(`kernel_boots_iff`).
-/

namespace JarvisOS

open Foundations Prog Paging

/-! ## Free frames -/

namespace Pmm

/-- How many of the frames below `limit` are free. -/
def freeBelow (p : Pmm) (limit : ℕ) : ℕ :=
  Nat.count (fun f => f < p.totalFrames ∧ p.frameTest f = false) limit

variable {p : Pmm} {f : ℕ}

theorem freeBelow_total (p : Pmm) : p.freeBelow p.totalFrames = p.freeCount := by
  rw [freeBelow, freeCount, Nat.count_eq_card_filter_range, Nat.count_eq_card_filter_range]
  refine congrArg Finset.card
    (Finset.filter_congr fun f hf => and_iff_right (Finset.mem_range.1 hf))

theorem freeBelow_of_full (h : ∀ f < p.totalFrames, p.frameTest f = true) (limit : ℕ) :
    p.freeBelow limit = 0 :=
  Nat.count_iff_forall_not.2 fun f _ hf => by
    have := h f hf.1
    rw [hf.2] at this
    cases this

theorem Sound.pmmAllocFrame_of_full (hp : p.Sound)
    (hall : ∀ f < p.totalFrames, p.frameTest f = true) :
    p.pmmAllocFrame = (0, p) := by
  rcases hp.pmmAllocFrame_spec with ⟨e, -⟩ | ⟨f, -, hf, -⟩
  · exact e
  · exact absurd (hf.1.2.symm.trans (hall f hf.1.1)) Bool.false_ne_true

/-- **Taking the least free frame** leaves one frame less below every bound that lies above it. -/
theorem freeBelow_frameMarkUsed (hf : IsLeast {g | g < p.totalFrames ∧ p.frameTest g = false} f)
    (limit : ℕ) :
    p.freeBelow limit = (p.frameMarkUsed f).freeBelow limit + if f < limit then 1 else 0 := by
  refine Bitmap.count_of_isLeast hf (fun g => ?_) limit
  rw [(p.frameMarkUsed_shape f).2.1, frameTest_frameMarkUsed, Bool.or_eq_false_iff]
  have hlt := hf.1.1
  simp only [hlt, decide_true, Bool.and_true, decide_eq_false_iff_not]
  tauto

theorem freeBelow_pos_iff (hf : IsLeast {g | g < p.totalFrames ∧ p.frameTest g = false} f)
    (limit : ℕ) :
    0 < p.freeBelow limit ↔ f < limit := Bitmap.count_pos_of_isLeast hf limit

/-- Taking the least free frame leaves one frame less. -/
theorem freeCount_frameMarkUsed (hf : IsLeast {g | g < p.totalFrames ∧ p.frameTest g = false} f) :
    p.freeCount = (p.frameMarkUsed f).freeCount + 1 := by
  rw [← freeBelow_total, ← freeBelow_total, (p.frameMarkUsed_shape f).2.1,
    freeBelow_frameMarkUsed hf, if_pos hf.1.1]

end Pmm

/-! ## The frames that `paging_init` takes -/

/-- The directory indices that have a table. -/
def tabled (tabs : ℕ → Option ℕ) : Set ℕ := {i | (tabs i).isSome}

/-- From the frames of `p₀`, the directory `d` and the tables have been taken, the least free one
each time. -/
structure Drawn (p₀ : Pmm) (d : ℕ) (p : Pmm) (tabs : ℕ → Option ℕ) : Prop where
  finite : (tabled tabs).Finite
  lower : ∀ limit, p₀.freeBelow limit ≤ p.freeBelow limit + 1 + (tabled tabs).ncard
  exact : ∀ limit, d < 4096 * limit → (∀ i t, tabs i = some t → t < 4096 * limit) →
    p₀.freeBelow limit = p.freeBelow limit + 1 + (tabled tabs).ncard

namespace Drawn

variable {p₀ p pmm : Pmm} {d f : ℕ} {tabs tabs' : ℕ → Option ℕ}

theorem start (hf : IsLeast {g | g < p₀.totalFrames ∧ p₀.frameTest g = false} f) :
    Drawn p₀ (4096 * f) (p₀.frameMarkUsed f) fun _ => none := by
  have hnone : tabled (fun _ => none) = ∅ := by simp [tabled]
  refine ⟨hnone ▸ Set.finite_empty, fun limit => ?_, fun limit hd _ => ?_⟩
  · rw [Pmm.freeBelow_frameMarkUsed hf, hnone, Set.ncard_empty]
    split_ifs <;> omega
  · rw [Pmm.freeBelow_frameMarkUsed hf, hnone, Set.ncard_empty, if_pos (by omega)]

theorem installed {s : Paging} {v : ℕ} (h : Drawn p₀ d s.pmm tabs)
    (hi : PageMap.Installed s tabs v pmm tabs') :
    Drawn p₀ d pmm tabs' := by
  cases hi with
  | found => exact h
  | @created f hnone h0 hf hlow =>
    have hset : tabled (Function.update tabs (dirIndex v) (some (4096 * f))) = insert (dirIndex v)
      (tabled tabs) := by
      ext i
      by_cases hi : i = dirIndex v
      · simp [tabled, hi]
      · simp [tabled, hi]
    have hnew : dirIndex v ∉ tabled tabs := by simp [tabled, hnone]
    have hcard : (tabled (Function.update tabs (dirIndex v) (some (4096 * f)))).ncard =
      (tabled tabs).ncard + 1 := by
      rw [hset, Set.ncard_insert_of_notMem hnew h.finite]
    refine ⟨hset ▸ h.finite.insert _, fun limit => ?_, fun limit hd ht => ?_⟩
    · have := h.lower limit
      rw [Pmm.freeBelow_frameMarkUsed hf] at this
      rw [hcard]
      split_ifs at this <;> omega
    · have hfl := ht (dirIndex v) (4096 * f) (Function.update_self ..)
      have hold : ∀ i t, tabs i = some t → t < 4096 * limit := by
        intro i t hit
        refine ht i t ?_
        rw [Function.update_of_ne, hit]
        rintro rfl
        rw [hnone] at hit
        cases hit
      rw [h.exact limit hd hold, Pmm.freeBelow_frameMarkUsed hf, if_pos (by omega), hcard]
      omega

/-- The tables of the first `n` pages. -/
theorem ncard_of_boot {s : Paging} {n : ℕ} (h : BootMap p₀ s tabs n) :
    (tabled tabs).ncard = (n + 1023) / 1024 := by
  have hset : tabled tabs = ↑(Finset.range ((n + 1023) / 1024)) := by
    ext i
    simp only [tabled, Set.mem_ofPred_eq, h.tabs_iff, Finset.coe_range, Set.mem_Iio]
    omega
  rw [hset, Set.ncard_coe_finset, Finset.card_range]

end Drawn

/-- Frames in use lie below the end of memory. -/
theorem below_of_inUse {p₀ : Pmm} {s : Paging} {tabs : ℕ → Option ℕ} {n a : ℕ}
    (h : BootMap p₀ s tabs n)
    (ha : s.pmm.InUse a) : a < 4096 * p₀.totalFrames := by
  obtain ⟨f, -, hf, rfl, -⟩ := ha
  rw [h.total] at hf
  omega

section Paging

variable {img : KernelImage} {mm : MemMap} {ram : Bitmap} {m : Mem}

/-- The pages of the identity map. -/
def MemMap.identityPages (mm : MemMap) : ℕ := identityWindow mm.highest.toNat / pageSize

/-- The tables of the identity map. -/
def MemMap.identityTables (mm : MemMap) : ℕ := (mm.identityPages + 1023) / 1024

/-- The number of the heap's table. -/
abbrev heapTable : ℕ := heapStart / pageSize / 1024

/-- What `paging_init` prints. -/
def pagingLog (mm : MemMap) (p : Pmm) (m : Mem) : List Output :=
  ((zeroed m p).pagingInit mm.highest.toNat).1

/-- `paging_init` has left page tables, and the heap has none. -/
structure PagingBuilt (mm : MemMap) (e : Paging) : Prop where
  map : ∃ tabs pages, e.PageMap tabs pages ∧ tabs heapTable = none
  window : e.identityEnd = mm.identityPages * pageSize

/-- The identity map is far below the heap. -/
theorem tabs_heapTable {p₀ : Pmm} {s : Paging} {tabs : ℕ → Option ℕ} {n : ℕ}
    (h : BootMap p₀ s tabs n)
    (hn : n ≤ 4096) : tabs heapTable = none := by
  rw [← Option.not_isSome_iff_eq_none, h.tabs_iff]
  have hheap : heapTable = 768 := rfl
  omega

/-- Without a frame for the directory nothing happens. -/
theorem pagingInit_of_full {p : Pmm} (hp : p.Sound)
    (hall : ∀ f < p.totalFrames, p.frameTest f = true)
    (highest : ℕ) (m : Mem) :
    ((zeroed m p).pagingInit highest).1 = [.str "FATAL: no frame for the page directory.\n"] ∧
      ((zeroed m p).pagingInit highest).2.pmm = p ∧
        ((zeroed m p).pagingInit highest).2.enabled = 0 := by
  simp only [pagingInit, zeroed, hp.pmmAllocFrame_of_full hall]
  exact ⟨rfl, rfl, rfl⟩

/-- With a frame for the directory, paging stays off for one reason. -/
theorem pagingInit_log {p : Pmm} {highest : ℕ} {m : Mem} (hf : p.pmmAllocFrame.1 ≠ 0)
    (hoff : ((zeroed m p).pagingInit highest).2.enabled = 0) :
    ((zeroed m p).pagingInit highest).1 =
      [.str "FATAL: ran out of frames building the identity map.\n"] := by
  have hdef : ∃ r : Bool × Paging, (zeroed m p).pagingInit highest = if p.pmmAllocFrame.1 = 0 then
      ([.str "FATAL: no frame for the page directory.\n"],
        ⟨m, p.pmmAllocFrame.2, 0, p.pmmAllocFrame.1, identityWindow highest, 0, 0, 0⟩)
      else if r.1 then ([], { r.2 with enabled := 1 })
      else ([.str "FATAL: ran out of frames building the identity map.\n"], r.2) := ⟨_, rfl⟩
  obtain ⟨r, hdef⟩ := hdef
  rw [hdef, if_neg hf] at hoff ⊢
  cases hr : r.1 with
  | true =>
    rw [hr, if_pos rfl] at hoff
    cases hoff
  | false => rfl

theorem freeBelow_of_noTableFrame {s : Paging} (hs : s.pmm.Sound) (hno : PageMap.NoTableFrame s)
    {limit : ℕ}
    (hlimit : 4096 * limit ≤ s.identityEnd) : s.pmm.freeBelow limit = 0 := by
  rcases hs.pmmAllocFrame_spec with ⟨-, hall⟩ | ⟨f, -, hf, -⟩
  · exact Pmm.freeBelow_of_full hall limit
  · have hend := hno f hf
    have hpos := Pmm.freeBelow_pos_iff hf limit
    omega

/-- **The frames that `paging_init` takes.** With a frame for the directory and one for each table
in the identity window it takes these and enables paging. Otherwise it runs out of the free frames
in the window, or it finds none. -/
theorem bootPaging_cases (img : KernelImage) (mm : MemMap) (ram : Bitmap) (m : Mem) :
    let p₀ := Pmm.pmmInit img mm ram
    let e := bootPaging mm ⟨p₀, []⟩ m
    (e.enabled = 1 ∧ PagingBuilt mm e ∧ pagingLog mm p₀ m = [] ∧
      p₀.freeBelow mm.identityPages = e.pmm.freeBelow mm.identityPages + 1 + mm.identityTables ∧
      p₀.freeCount = e.pmm.freeCount + 1 + mm.identityTables) ∨
    (e.enabled = 0 ∧ PagingBuilt mm e ∧
      pagingLog mm p₀ m = [.str "FATAL: ran out of frames building the identity map.\n"] ∧
      0 < p₀.freeCount ∧ p₀.freeBelow mm.identityPages ≤ mm.identityTables ∧
      e.pmm.freeBelow mm.identityPages = 0) ∨
    (e.enabled = 0 ∧ e.pmm = p₀ ∧ pagingLog mm p₀ m =
      [.str "FATAL: no frame for the page directory.\n"] ∧
      (∀ f < p₀.totalFrames, p₀.frameTest f = true)) := by
  intro p₀ e
  have hsound : p₀.Sound := (FrameReach.init img mm ram).sound
  have htotal : p₀.totalFrames = mm.highest.toNat / frameSize := pmmInit_totalFrames img mm ram
  rcases hsound.pmmAllocFrame_spec with ⟨-, hall⟩ | ⟨f, h0, hf, ealloc⟩
  · obtain ⟨hlog, hpmm, hoff⟩ := pagingInit_of_full hsound hall mm.highest.toNat m
    exact Or.inr (Or.inr ⟨hoff, hpmm, hlog, hall⟩)
  have halloc : p₀.pmmAllocFrame.1 ≠ 0 := by
    rw [ealloc]
    simp only
    omega
  rcases pagingInit_cases hsound (P := Drawn p₀) (fun f _ hf => Drawn.start hf)
    (fun h hi => h.installed hi)
      mm.highest.isLt htotal m with ⟨hall, -⟩ | ⟨s, tabs, n, hmap, hdrawn, hend, hdvd, hle, hlast⟩
  · exact absurd (hf.1.2.symm.trans (hall f hf.1.1)) Bool.false_ne_true
  have hpages : s.identityEnd / pageSize = mm.identityPages := by rw [hend, MemMap.identityPages]
  have hwindow :
    s.identityEnd = mm.identityPages * pageSize := by rw [← hpages, Nat.div_mul_cancel hdvd]
  simp only [pageSize, identityBytes] at hwindow hle
  rcases hlast with ⟨eq, rfl, hdir⟩ | ⟨eq, hoff, hn, hnone, hno⟩
  · have he : e = { s with enabled := 1 } := congrArg Prod.snd eq
    have hcard := Drawn.ncard_of_boot hmap
    rw [hpages] at hcard
    have hlow := hdrawn.exact mm.identityPages (by omega) fun i t ht => by
      have := (hmap.map.table i t ht).2
      omega
    have hcount := hdrawn.exact p₀.totalFrames (below_of_inUse hmap hmap.map.dir) fun i t ht =>
      below_of_inUse hmap (hmap.map.table i t ht).1
    rw [Pmm.freeBelow_total, ← hmap.total, Pmm.freeBelow_total] at hcount
    rw [hcard] at hlow hcount
    rw [he]
    refine Or.inl
      ⟨rfl, ⟨⟨tabs, identityPages (s.identityEnd / pageSize), ?_, tabs_heapTable hmap (by omega)⟩,
      hwindow⟩, congrArg Prod.fst eq, hlow, hcount⟩
    exact hmap.map.congr rfl rfl rfl rfl hmap.map.sound rfl fun _ _ hu => ⟨hu, fun _ _ _ => rfl⟩
  · have he : e = s := eq
    have hfull : ¬ n / 1024 * 1024 < n := by
      rw [← hmap.tabs_iff, hnone]
      simp
    have hzero := freeBelow_of_noTableFrame hmap.map.sound hno
      (show 4096 * mm.identityPages ≤ s.identityEnd by omega)
    have hlower := hdrawn.lower mm.identityPages
    rw [hzero, Drawn.ncard_of_boot hmap] at hlower
    rw [hpages] at hn
    have hpos : 0 < p₀.freeCount := by
      rw [← Pmm.freeBelow_total, Pmm.freeBelow_pos_iff hf]
      exact hf.1.1
    refine Or.inr
      (Or.inl ⟨he ▸ hoff, ⟨⟨tabs, identityPages n, he ▸ hmap.map, tabs_heapTable hmap (by omega)⟩,
      he ▸ hwindow⟩, pagingInit_log halloc (by rw [eq]; exact hoff), hpos, ?_, he ▸ hzero⟩)
    rw [MemMap.identityTables]
    omega

/-- **`paging_init`** enables paging if and only if the window has a frame for the directory and one
for each table, and says what is missing otherwise. -/
theorem bootPaging_iff (img : KernelImage) (mm : MemMap) (ram : Bitmap) (m : Mem) :
    let p₀ := Pmm.pmmInit img mm ram
    let e := bootPaging mm ⟨p₀, []⟩ m
    (e.enabled = 1 ↔ mm.identityTables + 1 ≤ p₀.freeBelow mm.identityPages) ∧
    pagingLog mm p₀ m =
      if p₀.freeCount = 0 then [.str "FATAL: no frame for the page directory.\n"]
      else if e.enabled = 1 then []
      else [.str "FATAL: ran out of frames building the identity map.\n"] := by
  have hcases := bootPaging_cases img mm ram m
  simp only at hcases ⊢
  rcases hcases with ⟨hon, -, hlog, hwindow, hcount⟩ | ⟨hoff, -, hlog, hpos, hfew, -⟩ | ⟨hoff, -,
    hlog, hall⟩
  · exact ⟨iff_of_true hon (by omega), by rw [hlog, if_neg (by omega), if_pos hon]⟩
  · exact ⟨iff_of_false (by omega) (by omega), by rw [hlog, if_neg (by omega), if_neg (by omega)]⟩
  · have hempty : (Pmm.pmmInit img mm ram).freeCount = 0 := by
      rw [← Pmm.freeBelow_total, Pmm.freeBelow_of_full hall]
    refine ⟨iff_of_false (by omega) ?_, by rw [hlog, if_pos hempty]⟩
    rw [Pmm.freeBelow_of_full hall]
    omega

end Paging

/-! ## The frames that `heap_init` takes -/

namespace Paging.PageMap

variable {e : Paging} {tabs pages : ℕ → Option ℕ} {v limit : ℕ}

/-- **A page whose table exists** takes one frame. -/
theorem mapFresh_of_table (h : e.PageMap tabs pages) (hv : v < 2 ^ 32)
    (ht : (tabs (dirIndex v)).isSome) :
    e.pmm.freeCount = 0 ∧ e.mapFresh v = (none, e) ∨ ∃ a t pages', e.mapFresh v = (some a, t) ∧
      t.PageMap tabs pages' ∧ e.pmm.freeCount = t.pmm.freeCount + 1 := by
  obtain ⟨a, ha⟩ := Option.isSome_iff_exists.1 ht
  simp only [mapFresh]
  rcases h.sound.pmmAllocFrame_spec with ⟨e0, hall⟩ | ⟨f, h0, hf, e0⟩
  · rw [e0, if_pos rfl, ← Pmm.freeBelow_total, Pmm.freeBelow_of_full hall]
    exact Or.inl ⟨rfl, rfl⟩
  have hmark := h.frameMarkUsed f
  have hphys : 4096 * f / pageSize < (e.pmm.frameMarkUsed f).totalFrames := by
    rw [Nat.mul_div_cancel_left f (by decide), (e.pmm.frameMarkUsed_shape f).2.1]
    exact hf.1.1
  obtain ⟨t, hrun, hpmm, -, hmap⟩ := hmark.pagingMap_of_table hv ha pageWrite hphys
    (hmark.getTable_of_some hv ha true)
  rw [e0, if_neg (by omega), hrun, if_neg Nat.one_ne_zero]
  exact Or.inr ⟨_, t, _, rfl, hmap, by rw [hpmm, Pmm.freeCount_frameMarkUsed hf]⟩

/-- **The first page of a table** takes two frames, and the second one must lie in the identity
window. -/
theorem mapFresh_of_absent (h : e.PageMap tabs pages) (hv : v < 2 ^ 32)
    (ht : tabs (dirIndex v) = none)
    (hwindow : e.identityEnd = 4096 * limit) :
    e.pmm.freeBelow limit < 2 ∧ e.mapFresh v = (none, e) ∨ 2 ≤ e.pmm.freeBelow limit ∧
      ∃ a t tabs' pages', e.mapFresh v = (some a, t) ∧ t.PageMap tabs' pages' ∧
        (tabs' (dirIndex v)).isSome ∧
      e.pmm.freeCount = t.pmm.freeCount + 2 := by
  simp only [mapFresh]
  rcases h.sound.pmmAllocFrame_spec with ⟨e0, hall⟩ | ⟨f, h0, hf, e0⟩
  · rw [e0, if_pos rfl, Pmm.freeBelow_of_full hall]
    exact Or.inl ⟨by decide, rfl⟩
  have hphys : 4096 * f / pageSize < (e.pmm.frameMarkUsed f).totalFrames := by
    rw [Nat.mul_div_cancel_left f (by decide), (e.pmm.frameMarkUsed_shape f).2.1]
    exact hf.1.1
  have hbelow := Pmm.freeBelow_frameMarkUsed hf limit
  rw [e0, if_neg (by omega)]
  rcases (h.frameMarkUsed f).pagingMap_spec hv hphys pageWrite with
    ⟨em, -, hno⟩ | ⟨t, tabs', em, hmap, hinst, -⟩
  · have hzero := freeBelow_of_noTableFrame (h.sound.frameMarkUsed f) hno hwindow.ge
    simp only at hzero
    rw [em, if_pos rfl, Pmm.pmmFreeFrame_mul, h.sound.frameMarkFree_frameMarkUsed hf.1.1 hf.1.2]
    refine Or.inl ⟨?_, rfl⟩
    rw [hbelow, hzero]
    split_ifs <;> omega
  · rw [em, if_neg Nat.one_ne_zero]
    generalize hpmm : t.pmm = pmm at hinst
    cases hinst with
    | found hsome =>
      rw [ht] at hsome
      cases hsome
    | @created g _ _ hg hlow =>
      -- the table's frame lies above the page's
      have hpos := (Pmm.freeBelow_pos_iff hg limit).2 (by simp only at hlow; omega)
      have hfree := hg.1.2
      simp only at hlow hpos hfree
      rw [Pmm.frameTest_frameMarkUsed, Bool.or_eq_false_iff] at hfree
      have hlt := hg.1.1
      simp only at hlt
      rw [(e.pmm.frameMarkUsed_shape f).2.1] at hlt
      have hle : f ≤ g := hf.2 ⟨hlt, hfree.1⟩
      rw [if_pos (by omega)] at hbelow
      refine Or.inr ⟨by omega, _, t, _, _, rfl, hmap, by rw [Function.update_self]; rfl, ?_⟩
      rw [hpmm, Pmm.freeCount_frameMarkUsed hf, Pmm.freeCount_frameMarkUsed hg]

end Paging.PageMap

/-- **Pages whose table exists** are granted as long as there are frames. -/
theorem mapPages_of_table {tabs pages : ℕ → Option ℕ} {i count virt : ℕ} {s : HeapState Paging}
    (h : s.env.PageMap tabs pages) (hi : i < 1023) (ht : (tabs i).isSome)
      (hlo : i * 1024 * pageSize ≤ virt)
    (hhi : virt + count * pageSize ≤ (i + 1) * 1024 * pageSize) :
    (mapPages kernelBacking count virt s).1 = min count s.env.pmm.freeCount ∧
      s.env.pmm.freeCount =
        (mapPages kernelBacking count virt s).2.env.pmm.freeCount +
          (mapPages kernelBacking count virt s).1 := by
  induction count generalizing virt s pages with
  | zero => exact ⟨(Nat.zero_min _).symm, rfl⟩
  | succ count ih =>
    simp only [pageSize] at hlo hhi
    have hdir : dirIndex virt = i := by
      rw [dirIndex_eq]
      simp only [pageSize]
      omega
    obtain ⟨hgranted, henv⟩ := mapPage_kernelBacking virt s
    rcases h.mapFresh_of_table (by omega) (hdir.symm ▸ ht) with ⟨hnone, e⟩ | ⟨a, t, pages', e, hmap,
      hcount⟩
    · rw [e] at hgranted henv
      rw [mapPages_succ_of_refused hgranted, henv, hnone]
      exact ⟨(Nat.min_zero _).symm, rfl⟩
    · rw [e] at hgranted henv
      have henv : t = (mapPage kernelBacking virt s).2.env := henv.symm
      subst henv
      rw [mapPages_succ_of_granted hgranted,
        u32_of_lt (show virt + pageSize < 2 ^ 32 by simp only [pageSize]; omega)]
      obtain ⟨hfst, hsum⟩ :=
        ih hmap (show i * 1024 * pageSize ≤ virt + pageSize by simp only [pageSize]; omega)
        (show virt + pageSize + count * pageSize ≤
          (i + 1) * 1024 * pageSize by simp only [pageSize]; omega)
      simp only
      omega

/-- **`heap_init`** makes the heap ready if and only if all its first pages are granted, and says so
otherwise. -/
theorem run_heapInit_iff (m : Mem) (e : Paging) :
    ∃ t, run (heapAct kernelBacking) heapInit (.zeroed m e) = some ((), t) ∧
      t.env = (mapPages kernelBacking initialPages heapStart (heapEmpty m e)).2.env ∧
      (t.ready = 1 ↔ (mapPages kernelBacking initialPages heapStart (heapEmpty m e)).1 =
        initialPages) ∧
      t.out = if t.ready = 1 then [] else [.str "FATAL: could not map the kernel heap.\n"] := by
  have hpages : roundPages heapInitial = initialPages * pageSize := by decide
  obtain ⟨-, hbrk, hready, hout⟩ :=
    (mapPages_spec (B := kernelBacking) initialPages heapStart (heapEmpty m e)).1
  have hceil : heapStart + initialPages * pageSize ≤ heapStart + heapMax := by decide
  set g := (mapPages kernelBacking initialPages heapStart (heapEmpty m e)).2
  by_cases hall : (mapPages kernelBacking initialPages heapStart (heapEmpty m e)).1 = initialPages
  · have hgrow := runs_growMapping_granted (s := heapEmpty m e) hpages le_rfl hceil hall
    set u : HeapState Paging := { g with brk := heapStart + initialPages * pageSize }
    obtain ⟨m', hblock⟩ := runs_firstBlock (s := u)
      (show heapStart + headerSize ≤ heapStart + initialPages * pageSize by decide)
      (show heapStart + initialPages * pageSize < 2 ^ 32 by decide)
    have hset : run (heapAct kernelBacking) (perform (HeapOp.setBrk heapStart)) (.zeroed m e) =
        some (0, heapEmpty m e) := rfl
    have hrun : run (heapAct kernelBacking) heapInit (.zeroed m e) =
        some ((), { u with mem := m', head := heapStart, ready := 1 }) := by
      rw [heapInit_eq, run_bind_of_run _ hset, run_bind_of_run _ hgrow.1, if_neg Nat.one_ne_zero]
      exact hblock.1
    exact ⟨_, hrun, rfl, iff_of_true rfl hall, hout⟩
  · have hlt := Nat.lt_of_le_of_ne (mapPages_le _ _ _) hall
    have hgrow := runs_growMapping_refused (s := heapEmpty m e) hpages le_rfl
      (show u32 (heapStart + initialPages * pageSize) ≤ heapStart + heapMax by decide) hlt
      ((Nat.add_le_add_left (Nat.mul_le_mul_right pageSize hlt.le) _).trans hceil)
    have hrun : Runs (heapAct kernelBacking) (InWindow heapStart (heapStart + heapMax)) heapInit
      (.zeroed m e) ()
        { g with out := g.out ++ [.str "FATAL: could not map the kernel heap.\n"] } := by
      rw [heapInit_eq, runs_setBrk]
      refine hgrow.bind ?_
      rw [if_pos rfl, runs_print]
      exact runs_ret
    have hoff : g.ready ≠ 1 := hready ▸ Nat.zero_ne_one
    exact ⟨_, hrun.1, rfl, iff_of_false hoff hall,
      (congrArg (· ++ _) hout).trans (if_neg hoff).symm⟩

theorem mapFresh_sameBoot (virt : ℕ) (e : Paging) : SameBoot e (e.mapFresh virt).2 := by
  unfold mapFresh
  simp only
  split_ifs
  · exact SameBoot.refl e
  · exact pagingMap_sameBoot virt _ pageWrite { e with pmm := e.pmm.pmmAllocFrame.2 }
  · exact pagingMap_sameBoot virt _ pageWrite { e with pmm := e.pmm.pmmAllocFrame.2 }

theorem mapPages_sameBoot (count virt : ℕ) (s : HeapState Paging) :
    SameBoot s.env (mapPages kernelBacking count virt s).2.env := by
  induction count generalizing virt s with
  | zero => exact SameBoot.refl s.env
  | succ count ih =>
    have hpage : SameBoot s.env (mapPage kernelBacking virt s).2.env := by
      rw [(mapPage_kernelBacking virt s).2]
      exact mapFresh_sameBoot virt s.env
    cases h : (mapPage kernelBacking virt s).1 with
    | true =>
      rw [mapPages_succ_of_granted h]
      exact hpage.trans (ih _ _)
    | false =>
      rw [mapPages_succ_of_refused h]
      exact hpage

/-- **The first pages of the heap** take one frame each and one for their table. -/
theorem initialPages_granted {mm : MemMap} {e : Paging} (h : PagingBuilt mm e) (m : Mem) :
    ((mapPages kernelBacking initialPages heapStart (heapEmpty m e)).1 = initialPages ↔
      2 ≤ e.pmm.freeBelow mm.identityPages ∧ 17 ≤ e.pmm.freeCount) ∧
    ((mapPages kernelBacking initialPages heapStart (heapEmpty m e)).1 = initialPages →
      e.pmm.freeCount =
        (mapPages kernelBacking initialPages heapStart (heapEmpty m e)).2.env.pmm.freeCount +
          17) := by
  obtain ⟨tabs, pages, hmap, hnone⟩ := h.map
  have hdir : dirIndex heapStart = heapTable := dirIndex_eq heapStart
  obtain ⟨hgranted, henv⟩ := mapPage_kernelBacking heapStart (heapEmpty m e)
  rcases hmap.mapFresh_of_absent (by decide) (hdir ▸ hnone) (h.window.trans (Nat.mul_comm _ _)) with
    ⟨hfew, hrefused⟩ | ⟨htwo, a, t, tabs', pages', hfresh, hmap', ht, hcount⟩
  · have hno : (mapPage kernelBacking heapStart (heapEmpty m e)).1 = false := by
      rw [hgranted]
      exact congrArg (fun r : Option ℕ × Paging => r.1.isSome) hrefused
    rw [initialPages, mapPages_succ_of_refused hno]
    exact ⟨iff_of_false (Nat.zero_ne_add_one 15)
      fun h => by omega, fun h => absurd h (Nat.zero_ne_add_one 15)⟩
  · have hyes : (mapPage kernelBacking heapStart (heapEmpty m e)).1 = true := by
      rw [hgranted]
      exact congrArg (fun r : Option ℕ × Paging => r.1.isSome) hfresh
    have henv : (mapPage kernelBacking heapStart (heapEmpty m e)).2.env = t :=
      henv.trans (congrArg Prod.snd hfresh)
    rw [hdir] at ht
    obtain ⟨hfst, hsum⟩ := @mapPages_of_table tabs' pages' heapTable 15 (heapStart + pageSize)
      (mapPage kernelBacking heapStart (heapEmpty m e)).2 (henv ▸ hmap') (by decide) ht (by decide)
        (by decide)
    rw [henv] at hfst hsum
    have hnext : u32 (heapStart + pageSize) = heapStart + pageSize := by decide
    rw [initialPages, mapPages_succ_of_granted hyes, hnext]
    simp only
    omega

/-- Without a free frame no page is granted. -/
theorem mapPages_of_full {s : HeapState Paging} (hs : s.env.pmm.Sound)
    (hall : ∀ f < s.env.pmm.totalFrames, s.env.pmm.frameTest f = true) (count virt : ℕ) :
    (mapPages kernelBacking count virt s).1 = 0 := by
  cases count with
  | zero => rfl
  | succ count =>
    have hno : (mapPage kernelBacking virt s).1 = false := by
      rw [(mapPage_kernelBacking virt s).1, mapFresh, hs.pmmAllocFrame_of_full hall]
      rfl
    rw [mapPages_succ_of_refused hno]

/-- **The frames that boot takes.** The heap gets its first pages if and only if paging can be
enabled and there are frames left for its table, in the identity window, and for its pages. -/
theorem initialPages_booted (img : KernelImage) (mm : MemMap) (ram : Bitmap) (m hm : Mem) :
    let p₀ := Pmm.pmmInit img mm ram
    let e := bootPaging mm ⟨p₀, []⟩ m
    let r := mapPages kernelBacking initialPages heapStart (heapEmpty hm e)
    (r.1 = initialPages ↔
      mm.identityTables + 3 ≤ p₀.freeBelow mm.identityPages ∧
        mm.identityTables + 18 ≤ p₀.freeCount) ∧
    (r.1 = initialPages → e.enabled = 1 ∧ p₀.freeCount = r.2.env.pmm.freeCount +
      (mm.identityTables + 18)) := by
  have hcases := bootPaging_cases img mm ram m
  have hsound : (Pmm.pmmInit img mm ram).Sound := (FrameReach.init img mm ram).sound
  simp only at hcases ⊢
  generalize Pmm.pmmInit img mm ram = p₀ at hcases hsound ⊢
  generalize bootPaging mm ⟨p₀, []⟩ m = e at hcases ⊢
  rcases hcases with
    ⟨hon, hbuilt, -, hwindow, hcount⟩ | ⟨-, hbuilt, -, -, hfew, hzero⟩ | ⟨-, rfl, -, hall⟩
  · obtain ⟨hiff, htaken⟩ := initialPages_granted hbuilt hm
    refine ⟨hiff.trans (by omega), fun h => ⟨hon, ?_⟩⟩
    omega
  · obtain ⟨hiff, -⟩ := initialPages_granted hbuilt hm
    have hno : ¬ (2 ≤ e.pmm.freeBelow mm.identityPages ∧ 17 ≤ e.pmm.freeCount) := by omega
    exact ⟨iff_of_false (hno ∘ hiff.1) (by omega), fun h => absurd (hiff.1 h) hno⟩
  · have hno : (mapPages kernelBacking initialPages heapStart (heapEmpty hm e)).1 ≠
      initialPages := by
      rw [mapPages_of_full (s := heapEmpty hm e) hsound hall]
      exact Nat.zero_ne_add_one 15
    rw [Pmm.freeBelow_of_full hall]
    exact ⟨iff_of_false hno (by omega), fun h => absurd h hno⟩

/-! ## `kernel_main` -/

/-- `MULTIBOOT_MAGIC`. -/
abbrev multibootMagic : BitVec 32 := 0x2BADB002#32

/-- What `kernel_main` starts from: its two arguments, the image, what lies in physical memory,
where the frame bitmap comes to lie and where the heap comes to lie, and whether `serial_init` finds
a port. -/
structure BootLoad where
  magic : BitVec 32
  mbi : MultibootInfo
  img : KernelImage
  ram : Mem
  bitmap : Bitmap
  heap : Mem
  serialReady : Bool

/-- `shell_init`, with `shell_prompt`. -/
def shellInit : List Output := [.str "\n", .str "jarvis> "]

/-- What `kernel_main` prints, with what `memory_init`, `paging_init` and `heap_init` print. -/
def bootLog (serialReady : Bool) (memoryOut : List Output) (info : MemoryInfo) (p : Pmm)
    (pagingOut : List Output)
    (e : Paging) (heapOut : List Output) (size : ℕ) : List Output :=
  List.flatten [
    [.str "JarvisOS 1.0.0 booting...\n"],
    memoryOut,
    [.str "Memory map parsed: ", .int (info.usableKb.toNat / 1024),
      .str " MB usable RAM detected.\n"],
    [.str "Physical allocator online: ", .int p.pmmFreeFrames, .str " free frames (",
      .int (u32 (p.pmmFreeFrames * 4) / 1024), .str " MB).\n"],
    pagingOut,
    [.str "Paging enabled: identity map 0 - ", .hex e.identityEnd, .str " (", .int e.tableCount,
      .str " page tables).\n"],
    heapOut,
    [.str "Kernel heap ready at ", .hex heapStart, .str " (", .int (size / 1024),
      .str " KB mapped).\n"],
    [.str "Scheduler armed, PIT at ", .int timerHz.toNat, .str " Hz (", .int (1000 / timerHz.toNat),
      .str " ms per tick).\n"],
    [.str "Interrupts online. Keyboard",
      .str (if serialReady then " and COM1 serial ready.\n" else " ready (no serial port).\n"),
      .str "Type 'help' for commands.\n"],
    shellInit]

/-- `kernel_main` up to the loop of task 0. The state is missing when it halts before, and
everything when `memory_init` takes more than `fuel` rounds. -/
def kernelMain (fuel : ℕ) (b : BootLoad) : Option (List Output × Option ShellState) :=
  if b.magic ≠ multibootMagic then
    some ([.str "JarvisOS 1.0.0 booting...\n", .str "FATAL: not booted by a Multiboot loader.\n"],
      none)
  else do
    let (memoryOut, info) ← memoryInit fuel b.ram b.mbi
    let p := Pmm.pmmInit b.img info.memMap b.bitmap
    let (pagingOut, e) := (zeroed b.ram p).pagingInit info.highest.toNat
    let ((), s) ← run (heapAct kernelBacking) heapInit (.zeroed b.heap e)
    let (size, s) ← run (heapAct kernelBacking) heapSize s
    some (bootLog b.serialReady memoryOut info p pagingOut e s.out size,
      some ⟨Sched.schedulerInit Sched.zeroed, ⟨s, ∅⟩, []⟩)

/-- The messages of a failed boot. -/
def bootFailures : List Output :=
  [.str "FATAL: no frame for the page directory.\n",
    .str "FATAL: ran out of frames building the identity map.\n",
    .str "FATAL: could not map the kernel heap.\n"]

/-- A number is none of these messages. -/
theorem int_notMem_bootFailures (n : ℕ) : Output.int n ∉ bootFailures := by
  intro h
  have hdigits : ∀ c ∈ (toString n).toList, c.isDigit := fun c hc =>
    Nat.isDigit_of_mem_toDigits (b := 10) (n := n) (by decide) le_rfl (by simpa using hc)
  simp only [bootFailures, Output.int, List.mem_cons, Output.str.injEq, List.not_mem_nil,
    or_false] at h
  rcases h with h | h | h <;> exact absurd (hdigits 'F' (by rw [h]; decide)) (by decide)

/-- `memory_init` fails in another way. -/
theorem memoryInit_log {fuel : ℕ} {m : Mem} {mbi : MultibootInfo} {out : List Output}
    {info : MemoryInfo}
    (h : memoryInit fuel m mbi = some (out, info)) : ∀ o ∈ out, o ∉ bootFailures := by
  rw [memoryInit] at h
  split_ifs at h
  · obtain ⟨rfl, -⟩ := Prod.mk.inj (Option.some.inj h)
    decide
  · obtain ⟨s, -, hs⟩ := Option.map_eq_some_iff.1 h
    obtain ⟨rfl, -⟩ := Prod.mk.inj hs
    exact fun o ho => absurd ho List.not_mem_nil

/-- These messages come from `paging_init` and `heap_init` only. -/
theorem mem_bootLog {ready : Bool} {memoryOut pagingOut heapOut : List Output} {info : MemoryInfo}
    {p : Pmm}
    {e : Paging} {size : ℕ} {o : Output} (hmem : ∀ o ∈ memoryOut, o ∉ bootFailures)
      (ho : o ∈ bootFailures) :
    o ∈ bootLog ready memoryOut info p pagingOut e heapOut size ↔ o ∈ pagingOut ∨ o ∈ heapOut := by
  have hint : ∀ n, o ≠ .int n := fun n h => int_notMem_bootFailures n (h ▸ ho)
  have hout : o ∉ memoryOut := fun h => hmem o h ho
  simp only [bootLog, shellInit, List.flatten_cons, List.flatten_nil, List.mem_append,
    List.mem_cons, List.not_mem_nil, or_false, hint, hout, false_or]
  simp only [bootFailures, List.mem_cons, List.not_mem_nil, or_false] at ho
  rcases ho with rfl | rfl | rfl <;> cases ready <;> simp

/-- Each message is printed in its own case. -/
theorem bootLog_failures {ready : Bool} {memoryOut : List Output} {info : MemoryInfo} {pmm : Pmm}
    {e : Paging}
    {size : ℕ} {P Q R : Prop} [Decidable P] [Decidable Q] [Decidable R]
    (hmem : ∀ o ∈ memoryOut, o ∉ bootFailures) {log : List Output}
    (hlog : log = bootLog ready memoryOut info pmm
      (if P then [.str "FATAL: no frame for the page directory.\n"]
        else if Q then [] else [.str "FATAL: ran out of frames building the identity map.\n"]) e
      (if R then [] else [.str "FATAL: could not map the kernel heap.\n"]) size) :
    (.str "FATAL: no frame for the page directory.\n" ∈ log ↔ P) ∧
      (.str "FATAL: ran out of frames building the identity map.\n" ∈ log ↔ ¬ P ∧ ¬ Q) ∧
      (.str "FATAL: could not map the kernel heap.\n" ∈ log ↔ ¬ R) := by
  subst hlog
  refine ⟨?_, ?_, ?_⟩
  · rw [mem_bootLog hmem (by simp [bootFailures])]
    split_ifs <;> simp [*]
  · rw [mem_bootLog hmem (by simp [bootFailures])]
    split_ifs <;> simp [*]
  · rw [mem_bootLog hmem (by simp [bootFailures])]
    split_ifs <;> simp [*]

/-- **`kernel_main`** goes on after `paging_init` and `heap_init` in any case. -/
theorem kernelMain_eq {fuel : ℕ} {b : BootLoad} {out : List Output} {info : MemoryInfo}
    {s : HeapState Paging}
    (hmagic : b.magic = multibootMagic) (hmem : memoryInit fuel b.ram b.mbi = some (out, info))
    (hrun : run (heapAct kernelBacking) heapInit (.zeroed b.heap
      (bootPaging info.memMap ⟨Pmm.pmmInit b.img info.memMap b.bitmap, []⟩ b.ram)) = some ((), s)) :
    kernelMain fuel b = some
      (bootLog b.serialReady out info (Pmm.pmmInit b.img info.memMap b.bitmap)
        (pagingLog info.memMap (Pmm.pmmInit b.img info.memMap b.bitmap) b.ram)
        (bootPaging info.memMap ⟨Pmm.pmmInit b.img info.memMap b.bitmap, []⟩ b.ram) s.out
          (sub32 s.brk heapStart),
      some ⟨Sched.schedulerInit Sched.zeroed, ⟨s, ∅⟩, []⟩) := by
  have hsize : run (heapAct kernelBacking) heapSize s = some (sub32 s.brk heapStart, s) := rfl
  have hpaging : (zeroed b.ram (Pmm.pmmInit b.img info.memMap b.bitmap)).pagingInit
    info.highest.toNat =
      (pagingLog info.memMap (Pmm.pmmInit b.img info.memMap b.bitmap) b.ram,
        bootPaging info.memMap ⟨Pmm.pmmInit b.img info.memMap b.bitmap, []⟩ b.ram) := rfl
  rw [kernelMain, if_neg (not_not_intro hmagic), hmem]
  simp only [Option.bind_eq_bind, Option.bind_some, hpaging, hrun, hsize]

/-- **The kernel boots to its shell** whatever memory it finds. Paging comes on if and only if the
identity window has a free frame for the directory and one for each table of the identity map; the
heap becomes ready if and only if it then has two more and there are frames for the first pages. A
message says what has failed, and `Kernel heap ready at` is printed in any case. -/
theorem kernel_boots_iff {fuel : ℕ} {b : BootLoad} {out : List Output} {info : MemoryInfo}
    (hmagic : b.magic = multibootMagic) (hmem : memoryInit fuel b.ram b.mbi = some (out, info)) :
    let p₀ := Pmm.pmmInit b.img info.memMap b.bitmap
    let window := p₀.freeBelow info.memMap.identityPages
    let tables := info.memMap.identityTables
    ∃ log p, kernelMain fuel b = some (log, some p) ∧
      ShellStarted (bootPaging info.memMap ⟨p₀, []⟩ b.ram) p ∧
      (p.env.enabled = 1 ↔ tables + 1 ≤ window) ∧
      (p.heap.ready = 1 ↔ tables + 3 ≤ window ∧ tables + 18 ≤ p₀.freeCount) ∧
      (p.heap.ready = 1 → p.env.enabled = 1 ∧ p₀.freeCount = p.env.pmm.freeCount + (tables + 18)) ∧
      (.str "FATAL: no frame for the page directory.\n" ∈ log ↔ p₀.freeCount = 0) ∧
      (.str "FATAL: ran out of frames building the identity map.\n" ∈ log ↔
        p₀.freeCount ≠ 0 ∧ p.env.enabled ≠ 1) ∧
      (.str "FATAL: could not map the kernel heap.\n" ∈ log ↔ p.heap.ready ≠ 1) ∧
      .str "Kernel heap ready at " ∈ log := by
  obtain ⟨hpaging, hpagingLog⟩ := bootPaging_iff b.img info.memMap b.bitmap b.ram
  obtain ⟨hheap, htaken⟩ := initialPages_booted b.img info.memMap b.bitmap b.ram b.heap
  obtain ⟨s, hrun, henv, hready, hheapLog⟩ := run_heapInit_iff b.heap
    (bootPaging info.memMap ⟨Pmm.pmmInit b.img info.memMap b.bitmap, []⟩ b.ram)
  have hmain := kernelMain_eq hmagic hmem hrun
  simp only at hpagingLog ⊢
  generalize Pmm.pmmInit b.img info.memMap b.bitmap = p₀ at *
  generalize bootPaging info.memMap ⟨p₀, []⟩ b.ram = e at *
  have hon : s.env.enabled = e.enabled := by
    rw [henv]
    exact (mapPages_sameBoot initialPages heapStart (heapEmpty b.heap e)).2.2.2
  rw [hpagingLog, hheapLog] at hmain
  rw [← henv] at htaken
  obtain ⟨hdirectory, hidentity, hmap⟩ := bootLog_failures (P := p₀.freeCount = 0)
    (Q := e.enabled = 1) (R := s.ready = 1) (memoryInit_log hmem) rfl
  exact ⟨_, _, hmain, ⟨rfl, ⟨⟨_, hrun⟩, rfl⟩, rfl⟩, hon ▸ hpaging, hready.trans hheap,
    fun h => hon ▸ htaken (hready.1 h), hdirectory, hon ▸ hidentity, hmap, by simp [bootLog]⟩

/-- The map of the small machine, one entry at `0x9000`. -/
def smallLoad : BootLoad where
  magic := multibootMagic
  mbi := ⟨0x40#32, 24#32, 0x9000#32⟩
  img := smallImage
  ram := [(0x9000, 20), (0x900c, 0x18000), (0x9014, 1)].foldl (fun m w => Mem.write32 m w.1 w.2)
    fun _ => 0
  bitmap _ := 0#32
  heap _ := 0
  serialReady := true

theorem memoryInit_smallLoad :
    memoryInit 2 smallLoad.ram smallLoad.mbi = some
      ([], ⟨96#32, 96#32, 0x18000#32, smallMap.regions⟩) := by
  rfl

/-- The small machine boots with paging and a heap, and three frames are left. -/
theorem kernel_boots_iff_small : ∃ log p, kernelMain 2 smallLoad = some (log, some p) ∧
    p.env.enabled = 1 ∧
    p.heap.ready = 1 ∧ p.env.pmm.freeCount = 3 := by
  have hwindow : smallMap.identityTables + 3 ≤ smallFrames.pmm.freeBelow
    smallMap.identityPages := by decide +kernel
  have hfree : smallFrames.pmm.freeCount = smallMap.identityTables + 18 + 3 := by decide +kernel
  have hroom : smallMap.identityTables + 18 ≤ smallFrames.pmm.freeCount := by omega
  obtain ⟨log, p, hmain, -, -, hready, htaken, -⟩ := kernel_boots_iff rfl memoryInit_smallLoad
  have hheap : p.heap.ready = 1 := hready.2 ⟨hwindow, hroom⟩
  have hleft : smallFrames.pmm.freeCount = p.env.pmm.freeCount + (smallMap.identityTables + 18) :=
    (htaken hheap).2
  exact ⟨log, p, hmain, (htaken hheap).1, hheap, by omega⟩

end JarvisOS
