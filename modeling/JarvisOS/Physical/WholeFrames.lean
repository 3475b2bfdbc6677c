import JarvisOS.Physical.FrameExclusive

/-!
# The frames that are free after boot

`pmm_init` frees, for a type-1 region, as many frames as fit in its length, counted from the frame
that its base lies in (`Region.Frees`). Beyond the bitmap and below the last frame these are the
free frames (`pmmInit_free_iff`). Such a frame is whole usable memory unless it is the first frame
of a region whose base is not aligned, or meets a region of another type: `pmmInit_whole_iff`.
-/

namespace JarvisOS

open Foundations

namespace Region

/-- The region holds usable memory. -/
def Usable (r : Region) : Prop := r.type = 1#32

instance (r : Region) : Decidable r.Usable := inferInstanceAs (Decidable (_ = _))

/-- The address lies in the region. -/
def Contains (r : Region) (a : ℕ) : Prop := r.base.toNat ≤ a ∧ a < r.base.toNat + r.len.toNat

/-- The frame its base lies in. -/
def firstFrame (r : Region) : ℕ := r.base.toNat / frameSize

/-- The frames that fit in its length. -/
def frameCount (r : Region) : ℕ := r.len.toNat / frameSize

/-- `pmm_init` frees the frame on account of the region. -/
def Frees (r : Region) (f : ℕ) : Prop :=
  r.Usable ∧ r.firstFrame ≤ f ∧ f < r.firstFrame + r.frameCount

theorem firstFrame_add_frameCount_le (r : Region) :
    frameSize * (r.firstFrame + r.frameCount) ≤ r.base.toNat + r.len.toNat := by
  unfold firstFrame frameCount
  simp only [frameSize]
  omega

end Region

namespace Pmm

/-! ## The bitmap after `pmm_init` -/

theorem frameTest_foldl_frameMarkFree (l : List ℕ) (p : Pmm) (g : ℕ) :
    (l.foldl frameMarkFree p).frameTest g = false ↔
      p.frameTest g = false ∨ (g ∈ l ∧ g < p.totalFrames) := by
  induction l generalizing p with
  | nil => simp
  | cons f l ih =>
    rw [List.foldl_cons, ih, frameTest_frameMarkFree, (p.frameMarkFree_shape f).2.1, List.mem_cons]
    by_cases hg : g = f
    · subst hg
      by_cases hp : p.frameTest g = true <;> simp [hp]
    · simp [hg]

theorem frameTest_freeRegion (p : Pmm) (r : Region) (g : ℕ) :
    (p.freeRegion r).frameTest g = false ↔
      p.frameTest g = false ∨ (r.Frees g ∧ g < p.totalFrames) := by
  unfold freeRegion
  by_cases hr : r.type = 1#32
  · have hbase := r.base.isLt
    have hmem : g ∈ (List.range r.frameCount).map (fun f => u32 (r.firstFrame + f)) ↔
      r.Frees g := by
      simp only [List.mem_map, List.mem_range, Region.Frees, Region.Usable, hr, true_and]
      constructor
      · rintro ⟨f, hf, rfl⟩
        rw [u32_of_lt (by simp only [Region.firstFrame, Region.frameCount, frameSize] at *; omega)]
        omega
      · rintro ⟨h1, h2⟩
        refine ⟨g - r.firstFrame, by omega, ?_⟩
        rw [show r.firstFrame + (g - r.firstFrame) = g by omega, u32_of_lt]
        simp only [Region.firstFrame, Region.frameCount, frameSize] at *
        omega
    rw [if_neg (not_not.2 hr), ← hmem, ← frameTest_foldl_frameMarkFree, List.foldl_map]
    rfl
  · rw [if_pos hr]
    simp [Region.Frees, Region.Usable, hr]

theorem frameTest_foldl_freeRegion (l : List Region) (p : Pmm) (hp : p.Padded) (g : ℕ) :
    (l.foldl freeRegion p).frameTest g = false ↔
      p.frameTest g = false ∨ ((∃ r ∈ l, r.Frees g) ∧ g < p.totalFrames) := by
  induction l generalizing p with
  | nil => simp
  | cons r l ih =>
    obtain ⟨hshape, hpad⟩ := freeRegion_shape_padded p r hp
    rw [List.foldl_cons, ih _ hpad, frameTest_freeRegion, hshape.2.1, List.exists_mem_cons_iff]
    tauto

end Pmm

/-! ## Where the bitmap ends -/

namespace MemMap

/-- The frames below the highest usable address. -/
def frames (mm : MemMap) : ℕ := mm.highest.toNat / frameSize

/-- The first byte after the frame bitmap: the kernel's end rounded up to a frame, and one bit for
each frame in whole words. -/
def bitmapEnd (img : KernelImage) (mm : MemMap) : ℕ :=
  (img.kernelEnd + 4095) / frameSize * frameSize + (mm.frames + 31) / 32 * 4

/-- The last frame that `pmm_init` claims back. -/
def reservedFrame (img : KernelImage) (mm : MemMap) : ℕ := bitmapEnd img mm / frameSize

end MemMap

namespace Pmm

variable (img : KernelImage) (mm : MemMap) (ram : Bitmap)

theorem pmmInit_totalFrames : (pmmInit img mm ram).totalFrames = mm.frames :=
  (pmmInit_shape_padded img mm ram).1.2.1

theorem allUsed_bitmapEnd :
    (allUsed img mm ram).bitmapAddr + (allUsed img mm ram).bitmapSize = mm.bitmapEnd img := by
  have hroom := img.room
  simp only [allUsed, MemMap.bitmapEnd, MemMap.frames, frameSize]
  rw [show img.kernelEnd + 4096 - 1 = img.kernelEnd + 4095 by omega, u32_of_lt (by omega),
    u32_of_lt (by omega), show (4096 - 1 : ℕ) = 2 ^ 12 - 1 by decide,
    and_lnot32 (by decide) (by omega)]
  rfl

theorem pmmInit_bitmapEnd :
    (pmmInit img mm ram).bitmapAddr + (pmmInit img mm ram).bitmapSize = mm.bitmapEnd img := by
  obtain ⟨h1, -, h3⟩ := (pmmInit_shape_padded img mm ram).1
  rw [h1, h3, allUsed_bitmapEnd]

theorem lastReservedFrame_foldl :
    (mm.regions.foldl freeRegion (allUsed img mm ram)).lastReservedFrame =
      mm.reservedFrame img := by
  have hend := pmmInit_bitmap_end img mm ram
  obtain ⟨⟨g1, -, g3⟩, -⟩ := foldl_freeRegion_shape_padded mm.regions (allUsed_padded img mm ram)
  rw [pmmInit_bitmapEnd] at hend
  rw [lastReservedFrame, g1, g3, allUsed_bitmapEnd, u32_of_lt hend]
  rfl

/-- **The free frames after `pmm_init`** are those that some region frees, past the bitmap. -/
theorem pmmInit_free_iff {f : ℕ} (hf : f < mm.frames) :
    (pmmInit img mm ram).frameTest f = false ↔
      mm.reservedFrame img < f ∧ ∃ r ∈ mm.regions, r.Frees f := by
  have hpadded := allUsed_padded img mm ram
  have hused : (allUsed img mm ram).frameTest f = true := 
    frameTest_allUsed_of_lt img mm ram (hf.trans_le (allUsed_sized img mm ram).covers)
  obtain ⟨⟨-, hshape, -⟩, -⟩ := foldl_freeRegion_shape_padded mm.regions hpadded
  have htotal : f < (mm.regions.foldl freeRegion (allUsed img mm ram)).totalFrames := by
    rw [hshape]
    exact hf
  have hfold := frameTest_foldl_freeRegion mm.regions _ hpadded f
  rw [pmmInit, frameTest_foldl_frameMarkUsed, lastReservedFrame_foldl, Bool.or_eq_false_iff, hfold,
    hused, ← hshape]
  simp only [htotal, decide_true, Bool.and_true, Bool.true_eq_false, false_or, and_true,
    decide_eq_false_iff_not, not_lt]
  constructor
  · rintro ⟨hr, hlt⟩
    exact ⟨hlt, hr⟩
  · rintro ⟨hlt, hr⟩
    exact ⟨hr, hlt⟩

end Pmm

/-! ## Whole usable frames -/

/-- The frame is whole usable memory above the allocator's bitmap. -/
structure WholeFrame (p : Pmm) (mm : MemMap) (f : ℕ) : Prop where
  inside : ∀ a, 4096 * f ≤ a → a < 4096 * f + 4096 → ∃ r ∈ mm.regions, r.Usable ∧ r.Contains a
  apart : ∀ a, 4096 * f ≤ a → a < 4096 * f + 4096 → ∀ r ∈ mm.regions, r.Contains a → r.Usable
  above : p.bitmapAddr + p.bitmapSize ≤ 4096 * f

/-- The condition on the region table. A region that holds at least a frame and does not begin on a
frame boundary needs the start of its first frame from other usable regions, and regions of another
type stay out of the frames that are counted for a usable one. -/
structure MemMap.Aligned (img : KernelImage) (mm : MemMap) : Prop where
  start : ∀ r ∈ mm.regions, r.Usable → frameSize ≤ r.len.toNat →
    mm.reservedFrame img < r.firstFrame →
    r.firstFrame < mm.frames → ∀ a, 4096 * r.firstFrame ≤ a → a < r.base.toNat →
      ∃ r' ∈ mm.regions, r'.Usable ∧ r'.Contains a
  apart : ∀ r ∈ mm.regions, r.Usable → ∀ o ∈ mm.regions, ¬ o.Usable → ∀ a, o.Contains a →
    4096 * max r.firstFrame (mm.reservedFrame img + 1) ≤ a →
      4096 * min (r.firstFrame + r.frameCount) mm.frames ≤ a

/-- A frame past the first one that a region frees lies in the region; the first one lies in it from
its base on. -/
theorem Region.Frees.contains {r : Region} {f : ℕ} (h : r.Frees f) {a : ℕ} (hlo : 4096 * f ≤ a)
    (hhi : a < 4096 * f + 4096) : r.Contains a ∨ (f = r.firstFrame ∧ a < r.base.toNat) := by
  obtain ⟨-, h1, h2⟩ := h
  have hend := r.firstFrame_add_frameCount_le
  simp only [Region.Contains, Region.firstFrame, frameSize] at *
  omega

theorem MemMap.Aligned.wholeFrame {img : KernelImage} {mm : MemMap} (h : mm.Aligned img)
    (ram : Bitmap) {f : ℕ} (hf : f < mm.frames) (hres : mm.reservedFrame img < f) {r : Region}
    (hr : r ∈ mm.regions) (hfrees : r.Frees f) : WholeFrame (Pmm.pmmInit img mm ram) mm f where
  inside a hlo hhi := by
    rcases hfrees.contains hlo hhi with hin | ⟨rfl, hlt⟩
    · exact ⟨r, hr, hfrees.1, hin⟩
    · have hcount := hfrees.2.2
      simp only [Region.frameCount, frameSize] at hcount
      exact h.start r hr hfrees.1 (by simp only [frameSize]; omega) hres hf a hlo hlt
  apart a hlo hhi o ho hin := by
    by_contra hother
    obtain ⟨husable, h1, h2⟩ := hfrees
    have hbound := h.apart r hr husable o ho hother a hin (by omega)
    omega
  above := by
    rw [Pmm.pmmInit_bitmapEnd]
    simp only [MemMap.reservedFrame, frameSize] at hres
    omega

/-- **Boot frees only whole usable frames exactly on aligned tables.** -/
theorem pmmInit_whole_iff (img : KernelImage) (mm : MemMap) (ram : Bitmap) :
    (∀ f < (Pmm.pmmInit img mm ram).totalFrames, (Pmm.pmmInit img mm ram).frameTest f = false →
      WholeFrame (Pmm.pmmInit img mm ram) mm f) ↔ mm.Aligned img := by
  rw [Pmm.pmmInit_totalFrames]
  constructor
  · intro h
    have hwhole : ∀ r ∈ mm.regions, ∀ f, r.Frees f → mm.reservedFrame img < f → f < mm.frames →
        WholeFrame (Pmm.pmmInit img mm ram) mm f := by
      intro r hr f hfrees hres hf
      exact h f hf ((Pmm.pmmInit_free_iff img mm ram hf).2 ⟨hres, r, hr, hfrees⟩)
    constructor
    · intro r hr husable hlen hres hf a hlo hlt
      have hcount : 1 ≤ r.frameCount := by
        simp only [Region.frameCount, frameSize] at hlen ⊢
        omega
      have hbase : r.base.toNat < 4096 * r.firstFrame + 4096 := by
        simp only [Region.firstFrame, frameSize]
        omega
      exact (hwhole r hr _ ⟨husable, le_rfl, by omega⟩ hres hf).inside a hlo (by omega)
    · intro r hr husable o ho hother a hin hlo
      by_contra hhi
      have hfrees : r.Frees (a / 4096) := ⟨husable, by omega, by omega⟩
      exact hother ((hwhole r hr _ hfrees (by omega) (by omega)).apart a (by omega) (by omega) o ho
        hin)
  · intro h f hf hfree
    obtain ⟨hres, r, hr, hfrees⟩ := (Pmm.pmmInit_free_iff img mm ram hf).1 hfree
    exact h.wholeFrame ram hf hres hr hfrees

/-- A table in which usable memory begins in the middle of frame 512, after a reserved region. -/
def sharedFrameMap : MemMap :=
  ⟨[⟨0x100000#32, 0x100000#32, 1#32⟩, ⟨0x200000#32, 0x800#32, 2#32⟩,
    ⟨0x200800#32, 0x1800#32, 1#32⟩], 0x202000#32⟩

/-- Frame 512 of that table is free after boot although its first half is reserved. -/
theorem pmmInit_not_whole : ∃ (img : KernelImage) (ram : Bitmap),
    512 < (Pmm.pmmInit img sharedFrameMap ram).totalFrames ∧
      (Pmm.pmmInit img sharedFrameMap ram).frameTest 512 = false ∧
      ¬ WholeFrame (Pmm.pmmInit img sharedFrameMap ram) sharedFrameMap 512 := by
  refine ⟨⟨0x108000, by decide⟩, fun _ => 0#32, ?_, ?_, ?_⟩
  · rw [Pmm.pmmInit_totalFrames]
    decide
  · rw [Pmm.pmmInit_free_iff _ _ _ (by decide)]
    exact ⟨by decide, _, List.mem_cons_of_mem _ (List.mem_cons_of_mem _ List.mem_cons_self),
      by decide, by decide, by decide⟩
  · intro h
    have hreserved := h.apart 0x200000 (by decide) (by decide) ⟨0x200000#32, 0x800#32, 2#32⟩
      (by decide) ⟨by decide, by decide⟩
    exact absurd hreserved (by decide)

end JarvisOS
