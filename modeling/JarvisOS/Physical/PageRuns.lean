import JarvisOS.Physical.IdentityMap

/-!
# The page tables over whole runs

A page system is the state of the paging code together with the map its callers have asked for and
the frames that others hold. Its steps are the calls of `paging_map` and `paging_unmap` above the
identity window, the calls by which others take and give back frames, and writes to memory outside
the tables. In every state reached after `paging_init` the tables represent the map
(`paging_refines_map`).
-/

namespace JarvisOS

open Foundations

namespace Paging

/-- The address lies in the directory or in a table. -/
def InTables (s : Paging) (y : ℕ) : Prop :=
  y / pageSize * pageSize = s.pageDirectory ∨
    ∃ i < 1024, s.dirEntry i &&& pagePresent ≠ 0 ∧ y / pageSize * pageSize = frameOf (s.dirEntry i)

namespace PageMap

variable {s : Paging} {tabs M : ℕ → Option ℕ}

/-- A directory entry is present exactly when there is a table, and then names it. -/
theorem dirEntry_present (h : s.PageMap tabs M) {i : ℕ} (hi : i < 1024) :
    (s.dirEntry i &&& pagePresent ≠ 0 ↔ (tabs i).isSome) ∧
      ∀ t, tabs i = some t → frameOf (s.dirEntry i) = t := by
  have he : s.dirEntry i = (tabs i).elim 0 (· + 3) := h.tables.dir_entry i hi
  rcases ht : tabs i with _ | t
  · rw [ht] at he
    rw [he]
    simp
  · rw [ht] at he
    obtain ⟨f, -, hlt, rfl, -⟩ := (h.table i t ht).1
    have := h.sound.sized.total_lt
    rw [he, and_pagePresent, Option.elim, frameOf_eq (by omega)]
    simp only [pageSize, Option.isSome_some, iff_true, Option.some.injEq, forall_eq']
    omega

/-- Bytes of the directory and of the tables. -/
theorem inTables (h : s.PageMap tabs M) {a y : ℕ}
    (ha : a = s.pageDirectory ∨ ∃ i, tabs i = some a) (h1 : a ≤ y) (h2 : y < a + pageSize) :
    s.InTables y := by
  have haligned : s.pmm.InUse a → y / pageSize * pageSize = a := by
    rintro ⟨f, -, -, rfl, -⟩
    simp only [pageSize] at *
    omega
  rcases ha with rfl | ⟨i, hi⟩
  · exact Or.inl (haligned h.dir)
  · have hlt := h.tables.index_lt i a hi
    obtain ⟨hpresent, hframe⟩ := h.dirEntry_present hlt
    exact Or.inr ⟨i, hlt, hpresent.2 (by rw [hi]; rfl),
      (haligned (h.table i a hi).1).trans (hframe a hi).symm⟩

end PageMap

end Paging

/-! ## Runs -/

/-- The paging code, what its callers last asked for by page number, and the frames others hold. -/
structure PageSystem where
  paging : Paging
  pages : ℕ → Option ℕ
  held : Set ℕ

/-- One step of the page system. -/
inductive PageStep : PageSystem → PageSystem → Prop
  | map (q : PageSystem) {v p : ℕ} (flags : ℕ) (hv : q.paging.identityEnd ≤ v) (hv' : v < 2 ^ 32)
      (hp : p / pageSize < q.paging.pmm.pmmTotalFrames) :
      PageStep q ⟨(q.paging.pagingMap v p flags).2,
        if (q.paging.pagingMap v p flags).1 = 1 then Function.update q.pages (v / pageSize) (some p)
        else q.pages, q.held⟩
  | unmap (q : PageSystem) {v : ℕ} (hv : q.paging.identityEnd ≤ v) (hv' : v < 2 ^ 32) :
      PageStep q ⟨(q.paging.pagingUnmap v).2,
        if (q.paging.pagingUnmap v).1 = 1 then Function.update q.pages (v / pageSize) none
        else q.pages, q.held⟩
  /-- Someone else takes a frame. -/
  | allocFrame (q : PageSystem) :
      PageStep q ⟨{ q.paging with pmm := q.paging.pmm.pmmAllocFrame.2 }, q.pages,
        if q.paging.pmm.pmmAllocFrame.1 = 0 then q.held
        else insert q.paging.pmm.pmmAllocFrame.1 q.held⟩
  /-- Someone else gives back a frame it holds. -/
  | freeFrame (q : PageSystem) {a : ℕ} (ha : a ∈ q.held) :
      PageStep q ⟨{ q.paging with pmm := q.paging.pmm.pmmFreeFrame a }, q.pages, q.held \ {a}⟩
  /-- Memory outside the tables is written; `m` is the memory afterwards. -/
  | write (q : PageSystem) {m : Mem} (hm : ∀ y, q.paging.InTables y → m y = q.paging.ram y) :
      PageStep q ⟨{ q.paging with ram := m }, q.pages, q.held⟩

/-- The state of the paging code after `paging_init`, over the memory `m` and a frame allocator
`fs` of a machine with the memory map `mm`. -/
def bootPaging (mm : MemMap) (fs : FrameState) (m : Mem) : Paging :=
  ((Paging.zeroed m fs.pmm).pagingInit mm.highest.toNat).2

/-- `paging_init` has returned with paging enabled, whatever memory map the machine has and
whatever frames are outstanding. -/
def PageStarted (q : PageSystem) : Prop :=
  ∃ img mm ram fs m, FrameReach img mm ram fs ∧ q.paging = bootPaging mm fs m ∧
    q.paging.enabled ≠ 0 ∧ q.pages = identityPages (q.paging.identityEnd / pageSize) ∧
    q.held = {a | a ∈ fs.out}

/-- The states reached after `paging_init`. -/
def PageReach : PageSystem → Prop := Reach PageStarted PageStep

/-- The frames that others hold are in use and are neither the directory nor a table. -/
def HeldApart (q : PageSystem) (tabs : ℕ → Option ℕ) : Prop :=
  ∀ a ∈ q.held, q.paging.pmm.InUse a ∧ a ≠ q.paging.pageDirectory ∧ ∀ i, tabs i ≠ some a

/-- **The invariant of the page system.** -/
structure PageInv (q : PageSystem) (tabs : ℕ → Option ℕ) : Prop where
  refines : q.paging.PageMap tabs q.pages
  held : HeldApart q tabs
  identity : ∀ page < q.paging.identityEnd / pageSize, q.pages page = some (page * pageSize)
  dir_lt : q.paging.pageDirectory < q.paging.identityEnd
  aligned : pageSize ∣ q.paging.identityEnd
  window : q.paging.identityEnd ≤ identityBytes

theorem pmmInit_totalFrames (img : KernelImage) (mm : MemMap) (ram : Bitmap) :
    (Pmm.pmmInit img mm ram).totalFrames = mm.highest.toNat / frameSize :=
  (Pmm.pmmInit_shape_padded img mm ram).1.2.1

/-- What `paging_init` leaves behind when it enables paging. -/
theorem bootPaging_spec {img : KernelImage} {mm : MemMap} {ram : Bitmap} {fs : FrameState}
    (hfs : FrameReach img mm ram fs) {m : Mem} (hen : (bootPaging mm fs m).enabled ≠ 0) :
    ∃ s tabs, bootPaging mm fs m = { s with enabled := 1 } ∧
      Paging.BootMap fs.pmm s tabs (s.identityEnd / pageSize) ∧
      s.identityEnd = Paging.identityWindow mm.highest.toNat ∧ s.pageDirectory < s.identityEnd ∧
      pageSize ∣ s.identityEnd ∧ s.identityEnd ≤ identityBytes := by
  obtain ⟨s, tabs, e, hrest⟩ := Paging.pagingInit_spec hfs.sound mm.highest.isLt
    (hfs.inv.shape.2.1.trans (pmmInit_totalFrames img mm ram)) m hen
  exact ⟨s, tabs, congrArg Prod.snd e, hrest⟩

/-- An outstanding frame is in use. -/
theorem FrameReach.inUse {img : KernelImage} {mm : MemMap} {ram : Bitmap} {fs : FrameState}
    (h : FrameReach img mm ram fs) {a : ℕ} (ha : a ∈ fs.out) : fs.pmm.InUse a := by
  obtain ⟨f, hf, rfl, hfree⟩ := h.inv.held a ha
  exact ⟨f, FrameInv.frame_ne_zero (Pmm.pmmInit_frame_zero img mm ram) hf hfree,
    h.inv.shape.2.1.symm ▸ hf, rfl, (h.inv.used f hf).2 (Or.inr ha)⟩

namespace PageInv

variable {q r : PageSystem} {tabs : ℕ → Option ℕ}

theorem started (h : PageStarted q) : ∃ tabs, PageInv q tabs := by
  obtain ⟨img, mm, ram, fs, m, hfs, hq, hen, hpages, hheld⟩ := h
  obtain ⟨s, tabs, e, hmap, -, hdir, hdvd, hle⟩ := bootPaging_spec hfs (hq ▸ hen)
  rw [e] at hq
  obtain ⟨paging, pages, held⟩ := q
  simp only at hq hpages hheld hen
  subst hq hpages hheld
  refine ⟨tabs, ⟨hmap.map.sound, hmap.map.tables, hmap.map.dir, hmap.map.table, hmap.map.backed,
    hmap.map.tableCount, hmap.map.mappedPages⟩, fun a ha => ?_, fun page hp => if_pos hp,
    hdir, hdvd, hle⟩
  have hu : fs.pmm.InUse a := hfs.inUse ha
  exact ⟨hmap.keeps a hu, fun e => hmap.fresh a (Or.inl e) hu,
    fun i hi => hmap.fresh a (Or.inr ⟨i, hi⟩) hu⟩

/-- The identity is kept when the map is updated above it. -/
theorem identity_update (h : PageInv q tabs) {v page : ℕ} (hv : q.paging.identityEnd ≤ v)
    (o : Option ℕ) (hpage : page < q.paging.identityEnd / pageSize) :
    Function.update q.pages (v / pageSize) o page = some (page * pageSize) := by
  have hle := Nat.div_le_div_right (c := pageSize) hv
  rw [Function.update_of_ne (by omega)]
  exact h.identity page hpage

/-- What `paging_map` does to the page system. -/
theorem map (h : PageInv q tabs) {v p : ℕ} (flags : ℕ) (hv : q.paging.identityEnd ≤ v)
    (hv' : v < 2 ^ 32) (hp : p / pageSize < q.paging.pmm.pmmTotalFrames) :
    ∃ tabs', PageInv ⟨(q.paging.pagingMap v p flags).2,
      if (q.paging.pagingMap v p flags).1 = 1 then Function.update q.pages (v / pageSize) (some p)
      else q.pages, q.held⟩ tabs' := by
  rcases h.refines.pagingMap_spec hv' hp flags with ⟨e, -⟩ | ⟨t, tabs', e, hmap, hinst, hboot⟩
  · rw [e, if_neg Nat.zero_ne_one]
    exact ⟨tabs, h⟩
  obtain ⟨hdir, -, hend, -⟩ := hboot
  rw [e, if_pos rfl]
  refine ⟨tabs', hmap, fun a ha => ?_, fun page hpage => ?_, hdir.symm ▸ hend.symm ▸ h.dir_lt,
    hend.symm ▸ h.aligned, hend.symm ▸ h.window⟩
  · obtain ⟨hu, hne, htab⟩ := h.held a ha
    simp only [hdir]
    generalize t.pmm = pmm at hinst
    cases hinst with
    | found => exact ⟨hu, hne, htab⟩
    | @created f _ _ hf =>
      refine ⟨hu.frameMarkUsed f, hne, fun i hi => ?_⟩
      by_cases hin : i = dirIndex v
      · subst hin
        rw [Function.update_self] at hi
        exact hu.ne_of_free hf.1.2 (Option.some.inj hi).symm
      · rw [Function.update_of_ne hin] at hi
        exact htab i hi
  · simp only [hend] at hpage
    exact h.identity_update hv _ hpage

/-- What `paging_unmap` does to the page system. -/
theorem unmap (h : PageInv q tabs) {v : ℕ} (hv : q.paging.identityEnd ≤ v) (hv' : v < 2 ^ 32) :
    PageInv ⟨(q.paging.pagingUnmap v).2,
      if (q.paging.pagingUnmap v).1 = 1 then Function.update q.pages (v / pageSize) none
      else q.pages, q.held⟩ tabs := by
  rcases h.refines.pagingUnmap_spec hv' with ⟨-, e⟩ | ⟨-, t, e, hpmm, hboot, hmap⟩
  · rw [e, if_neg Nat.zero_ne_one]
    exact h
  obtain ⟨hdir, -, hend, -⟩ := hboot
  rw [e, if_pos rfl]
  refine ⟨hmap, fun a ha => ?_, fun page hpage => ?_, hdir.symm ▸ hend.symm ▸ h.dir_lt,
    hend.symm ▸ h.aligned, hend.symm ▸ h.window⟩
  · simp only [hpmm, hdir]
    exact h.held a ha
  · simp only [hend] at hpage
    exact h.identity_update hv _ hpage

/-- Someone takes a frame. -/
theorem allocFrame (h : PageInv q tabs) :
    PageInv ⟨{ q.paging with pmm := q.paging.pmm.pmmAllocFrame.2 }, q.pages,
      if q.paging.pmm.pmmAllocFrame.1 = 0 then q.held
      else insert q.paging.pmm.pmmAllocFrame.1 q.held⟩ tabs := by
  rcases h.refines.sound.pmmAllocFrame_spec with ⟨e, -⟩ | ⟨f, h0, hf, e⟩
  · rw [e, if_pos rfl]
    exact h
  rw [e, if_neg (by omega)]
  refine ⟨h.refines.congr rfl rfl rfl rfl (h.refines.sound.frameMarkUsed f)
    (q.paging.pmm.frameMarkUsed_shape f).2.1
    fun a _ ha => ⟨ha.frameMarkUsed f, fun _ _ _ => rfl⟩, ?_, h.identity, h.dir_lt, h.aligned,
    h.window⟩
  rintro a (rfl | ha)
  · exact ⟨Pmm.inUse_frameMarkUsed h0 hf.1.1, (h.refines.dir.ne_of_free hf.1.2).symm,
      fun i hi => (h.refines.table i _ hi).1.ne_of_free hf.1.2 rfl⟩
  · obtain ⟨hu, hne, htab⟩ := h.held a ha
    exact ⟨hu.frameMarkUsed f, hne, htab⟩

/-- Someone gives back a frame it holds. -/
theorem freeFrame (h : PageInv q tabs) {a : ℕ} (ha : a ∈ q.held) :
    PageInv ⟨{ q.paging with pmm := q.paging.pmm.pmmFreeFrame a }, q.pages, q.held \ {a}⟩ tabs := by
  obtain ⟨⟨f, h0, -, rfl, -⟩, hdir, htab⟩ := h.held a ha
  rw [Pmm.pmmFreeFrame_mul]
  refine ⟨h.refines.congr rfl rfl rfl rfl (h.refines.sound.frameMarkFree h0)
    (q.paging.pmm.frameMarkFree_shape f).2.1 fun b hb hu => ⟨hu.frameMarkFree ?_, fun _ _ _ => rfl⟩,
    fun b hb => ?_, h.identity, h.dir_lt, h.aligned, h.window⟩
  · rintro rfl
    rcases hb with e | ⟨i, hi⟩
    exacts [hdir e, htab i hi]
  · obtain ⟨hu, hne⟩ := h.held b hb.1
    exact ⟨hu.frameMarkFree hb.2, hne⟩

/-- Memory outside the tables is written. -/
theorem write (h : PageInv q tabs) {m : Mem}
    (hm : ∀ y, q.paging.InTables y → m y = q.paging.ram y) :
    PageInv ⟨{ q.paging with ram := m }, q.pages, q.held⟩ tabs :=
  ⟨h.refines.congr rfl rfl rfl rfl h.refines.sound rfl
    fun _ ha hu => ⟨hu, fun y h1 h2 => hm y (h.refines.inTables ha h1 h2)⟩,
    h.held, h.identity, h.dir_lt, h.aligned, h.window⟩

/-- **Every step keeps the invariant.** -/
theorem step (h : PageInv q tabs) (hs : PageStep q r) : ∃ tabs', PageInv r tabs' := by
  cases hs with
  | map flags hv hv' hp => exact h.map flags hv hv' hp
  | unmap hv hv' => exact ⟨tabs, h.unmap hv hv'⟩
  | allocFrame => exact ⟨tabs, h.allocFrame⟩
  | freeFrame ha => exact ⟨tabs, h.freeFrame ha⟩
  | write hm => exact ⟨tabs, h.write hm⟩

end PageInv

/-- **Every reachable state satisfies the invariant.** -/
theorem PageReach.inv {q : PageSystem} (h : PageReach q) : ∃ tabs, PageInv q tabs :=
  h.invariant (I := fun q => ∃ tabs, PageInv q tabs) (fun _ h0 => PageInv.started h0)
    fun _ _ _ ⟨_, hq⟩ hs => hq.step hs

/-! ## What the invariant says about the code -/

namespace PageInv

variable {q : PageSystem} {tabs : ℕ → Option ℕ}

/-- `mapped_pages` counts the pages that translate. -/
theorem mappedPages_eq (h : PageInv q tabs) : q.paging.mappedPages =
    ((Finset.range (2 ^ 20)).filter fun page =>
      q.paging.pagingTranslate (page * pageSize) ≠ pageUnmapped).card := by
  rw [h.refines.mappedPages, domSize]
  refine congrArg Finset.card (Finset.filter_congr fun page hpage => ?_)
  have hlt := Finset.mem_range.1 hpage
  rw [Ne, h.refines.pagingTranslate_eq_unmapped (by simp only [pageSize]; omega),
    Nat.mul_div_cancel _ (by decide), Option.isSome_iff_ne_none]

/-- `table_count` counts the present entries of the directory. -/
theorem tableCount_eq (h : PageInv q tabs) : q.paging.tableCount =
    ((Finset.range 1024).filter fun i => q.paging.dirEntry i &&& pagePresent ≠ 0).card := by
  rw [h.refines.tableCount, domSize]
  refine congrArg Finset.card (Finset.filter_congr fun i hi => ?_)
  rw [(h.refines.dirEntry_present (Finset.mem_range.1 hi)).1]

/-- `paging_map` leaves the translation of other pages alone. -/
theorem pagingMap_other (h : PageInv q tabs) {v p : ℕ} (flags : ℕ) (hv : v < 2 ^ 32)
    (hp : p / pageSize < q.paging.pmm.pmmTotalFrames) {w : ℕ} (hw : w < 2 ^ 32)
    (hne : w / pageSize ≠ v / pageSize) :
    (q.paging.pagingMap v p flags).2.pagingTranslate w = q.paging.pagingTranslate w := by
  rcases h.refines.pagingMap_spec hv hp flags with ⟨e, -⟩ | ⟨t, tabs', e, hmap, -⟩
  · rw [e]
  · rw [e, hmap.pagingTranslate_eq hw, h.refines.pagingTranslate_eq hw, Function.update_of_ne hne]

/-- `paging_unmap` says whether the page was mapped, leaves the translation of other pages alone and
never takes the counter below zero. -/
theorem pagingUnmap_result (h : PageInv q tabs) {v : ℕ} (hv : v < 2 ^ 32) :
    (q.paging.pagingUnmap v).1 = (if q.pages (v / pageSize) = none then 0 else 1) ∧
      (∀ w < 2 ^ 32, w / pageSize ≠ v / pageSize →
        (q.paging.pagingUnmap v).2.pagingTranslate w = q.paging.pagingTranslate w) ∧
      ((q.paging.pagingUnmap v).1 = 1 →
        (q.paging.pagingUnmap v).2.mappedPages + 1 = q.paging.mappedPages) := by
  rcases h.refines.pagingUnmap_spec hv with ⟨hM, e⟩ | ⟨hM, t, e, -, -, hmap⟩
  · rw [e, if_pos hM]
    exact ⟨rfl, fun _ _ _ => rfl, fun h1 => absurd h1 Nat.zero_ne_one⟩
  · rw [e, if_neg (Option.isSome_iff_ne_none.1 hM)]
    refine ⟨rfl, fun w hw hne => ?_, fun _ => ?_⟩
    · rw [hmap.pagingTranslate_eq hw, h.refines.pagingTranslate_eq hw, Function.update_of_ne hne]
    · rw [hmap.mappedPages, h.refines.mappedPages]
      exact domSize_update_none (by simp only [pageSize]; omega) hM

end PageInv

/-- **The page tables refine a finite map.** In every state reached after `paging_init`, by calls
of `paging_map` and `paging_unmap` above the identity window and by what others do with their own
frames and memory, an address translates through what its page was last successfully mapped to, and
to `PAGE_UNMAPPED` exactly when there is nothing of the kind; a call changes the translation of no
other page; `paging_unmap` returns `1` exactly on mapped pages; the two counters count the mapped
pages and the present directory entries and do not underflow. -/
theorem paging_refines_map {q : PageSystem} (h : PageReach q) :
    (∀ w < 2 ^ 32, q.paging.pagingTranslate w =
      (q.pages (w / pageSize)).elim pageUnmapped (frameOf · ||| (w &&& 0xFFF))) ∧
    (∀ w < 2 ^ 32, q.paging.pagingTranslate w = pageUnmapped ↔ q.pages (w / pageSize) = none) ∧
    (∀ v p flags, q.paging.identityEnd ≤ v → v < 2 ^ 32 →
      p / pageSize < q.paging.pmm.pmmTotalFrames → ∀ w < 2 ^ 32, w / pageSize ≠ v / pageSize →
        (q.paging.pagingMap v p flags).2.pagingTranslate w = q.paging.pagingTranslate w) ∧
    (∀ v, q.paging.identityEnd ≤ v → v < 2 ^ 32 →
      (q.paging.pagingUnmap v).1 = (if q.pages (v / pageSize) = none then 0 else 1) ∧
      (∀ w < 2 ^ 32, w / pageSize ≠ v / pageSize →
        (q.paging.pagingUnmap v).2.pagingTranslate w = q.paging.pagingTranslate w) ∧
      ((q.paging.pagingUnmap v).1 = 1 →
        (q.paging.pagingUnmap v).2.mappedPages + 1 = q.paging.mappedPages)) ∧
    q.paging.mappedPages = ((Finset.range (2 ^ 20)).filter fun page =>
      q.paging.pagingTranslate (page * pageSize) ≠ pageUnmapped).card ∧
    q.paging.tableCount =
      ((Finset.range 1024).filter fun i => q.paging.dirEntry i &&& pagePresent ≠ 0).card := by
  obtain ⟨tabs, hinv⟩ := h.inv
  exact ⟨fun w hw => hinv.refines.pagingTranslate_eq hw,
    fun w hw => hinv.refines.pagingTranslate_eq_unmapped hw,
    fun v p flags _ hv hp w hw hne => hinv.pagingMap_other flags hv hp hw hne,
    fun v _ hv => hinv.pagingUnmap_result hv, hinv.mappedPages_eq, hinv.tableCount_eq⟩

/-- A machine of 24 frames, all usable, with a small kernel in the first of them. -/
def smallMap : MemMap := ⟨[⟨0#32, 0x18000#32, 1#32⟩], 0x18000#32⟩

/-- The kernel of the small machine. -/
def smallImage : KernelImage := ⟨0x1000, by decide⟩

/-- The frames of the small machine at boot. -/
def smallFrames : FrameState := ⟨Pmm.pmmInit smallImage smallMap fun _ => 0#32, []⟩

/-- The paging code of the small machine after `paging_init`. -/
def smallPaging : Paging := bootPaging smallMap smallFrames fun _ => 0

theorem smallPaging_enabled : smallPaging.enabled ≠ 0 := by decide +kernel

/-- On the small machine `paging_init` enables paging. -/
theorem pageReach_small :
    PageReach ⟨smallPaging, identityPages (smallPaging.identityEnd / pageSize), ∅⟩ :=
  .start ⟨smallImage, smallMap, fun _ => 0#32, smallFrames, fun _ => 0, FrameReach.init _ _ _, rfl,
    smallPaging_enabled, rfl, by simp [smallFrames]⟩

/-- The paging code of the small machine after a page has been mapped at `0xD0000000`. -/
@[irreducible] def pageMapped : Paging := (smallPaging.pagingMap 0xD0000000 0x17000 pageWrite).2

theorem pageReach_mapped : PageReach ⟨pageMapped, Function.update
    (identityPages (smallPaging.identityEnd / pageSize)) (0xD0000000 / pageSize) (some 0x17000),
      ∅⟩ := by
  have hmapped : (smallPaging.pagingMap 0xD0000000 0x17000 pageWrite).1 = 1 := by decide +kernel
  have hreach := pageReach_small.next (PageStep.map _ (v := 0xD0000000) (p := 0x17000) pageWrite
    (by decide +kernel) (by decide) (by decide +kernel))
  simp only [hmapped, if_true] at hreach
  unfold pageMapped
  exact hreach

/-- Besides the identity window that page is mapped, and it can be unmapped again. -/
theorem paging_refines_map_small : pageMapped.pagingTranslate 0xD0000123 = 0x17123 ∧
    pageMapped.pagingTranslate 0x5123 = 0x5123 ∧ (pageMapped.pagingUnmap 0xD0000000).1 = 1 ∧
    (pageMapped.pagingUnmap 0xD0000000).2.pagingTranslate 0x5123 = 0x5123 ∧
    (pageMapped.pagingUnmap 0xD0000000).2.mappedPages + 1 = pageMapped.mappedPages := by
  obtain ⟨htranslate, -, -, hunmap, -⟩ := paging_refines_map pageReach_mapped
  obtain ⟨hresult, hother, hcount⟩ := hunmap 0xD0000000 (by decide +kernel) (by decide)
  have hlow := (htranslate 0x5123 (by decide)).trans (show _ = 0x5123 by decide +kernel)
  have hone := hresult.trans (show _ = 1 by decide +kernel)
  exact ⟨(htranslate 0xD0000123 (by decide)).trans (by decide +kernel), hlow, hone,
    (hother 0x5123 (by decide) (by decide)).trans hlow, hcount hone⟩

end JarvisOS
