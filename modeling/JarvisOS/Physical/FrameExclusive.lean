import JarvisOS.Foundations.Reach
import JarvisOS.Physical.FrameAllocator
import Mathlib.Data.List.Nodup
import Mathlib.Order.Bounds.Basic

/-!
# Exclusive ownership of frames

Runs of the allocator by clients that free only what they hold. The state of a run is the
allocator together with the list of outstanding addresses. `FrameInv` determines the bitmap: below
`totalFrames` a frame is used exactly when `pmmInit` left it used or it is outstanding, and the
bits at or beyond `totalFrames` are all set. The word-skipping scan then finds the least free
frame (`scan_eq_some`), and what it finds is always in range.
-/

namespace JarvisOS

open Foundations

namespace Pmm

/-! ## The scan -/

theorem scan_eq_firstClear {p : Pmm} (h : p.bitmapSize * 8 ≤ 2 ^ 32) :
    p.scan = p.bitmap.firstClear (p.bitmapSize / 4 * 32) := by
  rw [← Bitmap.firstClearByWords_eq]
  unfold scan Bitmap.firstClearByWords Bitmap.firstClearInWord
  simp only [shift_and_one]
  refine Bitmap.findSome?_congr_of_mem fun w hw => ?_
  have hw' : w < p.bitmapSize / 4 := List.mem_range.1 hw
  congr 1
  refine Option.map_congr fun j hj => ?_
  have hj' : j < 32 := List.mem_range.1 (List.mem_of_find?_eq_some hj)
  exact u32_of_lt (by omega)

/-- The plain scan, one bit after the other. -/
def naiveScan (p : Pmm) : Option ℕ :=
  (List.range (p.bitmapSize * 8)).find? fun f => !p.frameTest f

/-- The bits beyond the last frame are set. -/
def Padded (p : Pmm) : Prop :=
  ∀ f, p.totalFrames ≤ f → f < p.bitmapSize * 8 → p.frameTest f = true

/-- The bitmap has whole words and a bit for every frame, and its indices fit in 32 bits. -/
structure Sized (p : Pmm) : Prop where
  words : p.bitmapSize % 4 = 0
  covers : p.totalFrames ≤ p.bitmapSize * 8
  small : p.bitmapSize * 8 ≤ 2 ^ 20
  total_lt : p.totalFrames < 2 ^ 20

theorem Sized.of_shape {p q : Pmm} (h : p.Sized) (hs : SameShape p q) : q.Sized := by
  obtain ⟨-, ht, hb⟩ := hs
  exact ⟨hb ▸ h.words, ht ▸ hb ▸ h.covers, hb ▸ h.small, ht ▸ h.total_lt⟩

theorem scan_eq_naiveScan {p : Pmm} (hs : p.Sized) : p.scan = p.naiveScan := by
  have h1 := hs.small
  have h2 := hs.words
  rw [scan_eq_firstClear (by omega), show p.bitmapSize / 4 * 32 = p.bitmapSize * 8 by omega]
  simp only [Bitmap.firstClear, naiveScan, frameTest_eq]

/-- **The scan stops at the least free frame.** -/
theorem scan_eq_some {p : Pmm} (hs : p.Sized) (hp : p.Padded) {f : ℕ} :
    p.scan = some f ↔ IsLeast {g | g < p.totalFrames ∧ p.frameTest g = false} f := by
  have h1 := hs.small
  have h2 := hs.words
  rw [scan_eq_firstClear (by omega), show p.bitmapSize / 4 * 32 = p.bitmapSize * 8 by omega,
    Bitmap.firstClear_eq_some]
  have : {j | j < p.bitmapSize * 8 ∧ p.bitmap.get j = false} =
      {g | g < p.totalFrames ∧ p.frameTest g = false} := by
    ext g
    simp only [Set.mem_ofPred_eq, ← frameTest_eq]
    refine ⟨fun ⟨hg, hf⟩ => ⟨?_, hf⟩, fun ⟨hg, hf⟩ => ⟨hg.trans_le hs.covers, hf⟩⟩
    by_contra hle
    simp [hp g (by omega) hg] at hf
  rw [this]

theorem scan_eq_none {p : Pmm} (hs : p.Sized) (hp : p.Padded) :
    p.scan = none ↔ ∀ f < p.totalFrames, p.frameTest f = true := by
  have h1 := hs.small
  have h2 := hs.words
  rw [scan_eq_firstClear (by omega), show p.bitmapSize / 4 * 32 = p.bitmapSize * 8 by omega,
    Bitmap.firstClear_eq_none]
  simp only [← frameTest_eq]
  refine ⟨fun h f hf => h f (hf.trans_le hs.covers), fun h f hf => ?_⟩
  by_cases hlt : f < p.totalFrames
  · exact h f hlt
  · exact hp f (by omega) hf

/-- What `pmmAllocFrame` does, by whether a frame is free. -/
theorem pmmAllocFrame_cases {p : Pmm} (hs : p.Sized) (hp : p.Padded) :
    (p.pmmAllocFrame = (0, p) ∧ ∀ f < p.totalFrames, p.frameTest f = true) ∨
      ∃ f, IsLeast {g | g < p.totalFrames ∧ p.frameTest g = false} f ∧
        p.pmmAllocFrame = (4096 * f, p.frameMarkUsed f) := by
  unfold pmmAllocFrame
  rcases h : p.scan with _ | f
  · exact Or.inl ⟨rfl, (scan_eq_none hs hp).1 h⟩
  · refine Or.inr ⟨f, (scan_eq_some hs hp).1 h, ?_⟩
    have hf : f < p.totalFrames := ((scan_eq_some hs hp).1 h).1.1
    have ht := hs.total_lt
    simp only [frameSize]
    rw [if_neg (by omega), u32_of_lt (by omega), Nat.mul_comm]

/-! ## The bitmap after `pmmInit` -/

theorem Padded.frameMarkUsed {p : Pmm} (h : p.Padded) (f : ℕ) : (p.frameMarkUsed f).Padded := by
  intro g hg hg'
  obtain ⟨-, ht, hb⟩ := p.frameMarkUsed_shape f
  rw [frameTest_frameMarkUsed, h g (ht ▸ hg) (hb ▸ hg')]
  rfl

theorem Padded.frameMarkFree {p : Pmm} (h : p.Padded) (f : ℕ) : (p.frameMarkFree f).Padded := by
  intro g hg hg'
  obtain ⟨-, ht, hb⟩ := p.frameMarkFree_shape f
  rw [frameTest_frameMarkFree, h g (ht ▸ hg) (hb ▸ hg')]
  have hne : g ≠ f ∨ p.totalFrames ≤ f := by omega
  simpa using hne

/-- Folding a step that keeps the shape and the padding keeps both. -/
theorem foldl_shape_padded {ι : Type} {step : Pmm → ι → Pmm}
    (h : ∀ p i, SameShape p (step p i)) (h' : ∀ p i, p.Padded → (step p i).Padded) (l : List ι)
    {p : Pmm} (hp : p.Padded) : SameShape p (l.foldl step p) ∧ (l.foldl step p).Padded :=
  List.foldlRecOn (motive := fun q => SameShape p q ∧ q.Padded) l step ⟨SameShape.refl p, hp⟩
    fun q hq i _ => ⟨hq.1.trans (h q i), h' q i hq.2⟩

theorem freeRegion_shape_padded (p : Pmm) (r : Region) (hp : p.Padded) :
    SameShape p (p.freeRegion r) ∧ (p.freeRegion r).Padded := by
  unfold freeRegion
  split_ifs with h
  · exact ⟨SameShape.refl p, hp⟩
  · exact foldl_shape_padded (fun p f => p.frameMarkFree_shape _)
      (fun p f hp => hp.frameMarkFree _) _ hp

theorem fillBitmap_apply (b : Bitmap) (n w : ℕ) :
    fillBitmap b n w = if w < n then 0xFFFFFFFF#32 else b w := by
  unfold fillBitmap
  induction n with
  | zero => rfl
  | succ n ih =>
    rw [List.range_succ, List.foldl_append, List.foldl_cons, List.foldl_nil]
    by_cases hw : w = n
    · subst hw
      simp
    · rw [Function.update_of_ne hw, ih]
      simp only [show w < n + 1 ↔ w < n by omega]

/-- Every bit of the bitmap is set before any region is freed. -/
theorem frameTest_allUsed_of_lt (img : KernelImage) (mm : MemMap) (ram : Bitmap) {f : ℕ}
    (hf : f < (allUsed img mm ram).bitmapSize * 8) : (allUsed img mm ram).frameTest f = true := by
  rw [frameTest_eq]
  simp only [allUsed, Bitmap.get] at hf ⊢
  rw [fillBitmap_apply, if_pos (by omega), show (0xFFFFFFFF#32) = BitVec.allOnes 32 by decide,
    BitVec.getLsbD_allOnes]
  simp [Nat.mod_lt]

theorem allUsed_padded (img : KernelImage) (mm : MemMap) (ram : Bitmap) :
    (allUsed img mm ram).Padded := fun _ _ hf => frameTest_allUsed_of_lt img mm ram hf

theorem allUsed_sized (img : KernelImage) (mm : MemMap) (ram : Bitmap) :
    (allUsed img mm ram).Sized := by
  simp only [allUsed, frameSize]
  rw [u32_of_lt (by omega)]
  refine ⟨?_, ?_, ?_, ?_⟩ <;> simp only <;> omega

theorem foldl_freeRegion_shape_padded (l : List Region) {p : Pmm} (hp : p.Padded) :
    SameShape p (l.foldl freeRegion p) ∧ (l.foldl freeRegion p).Padded := by
  induction l generalizing p with
  | nil => exact ⟨SameShape.refl p, hp⟩
  | cons r l ih =>
    obtain ⟨h1, h2⟩ := freeRegion_shape_padded p r hp
    obtain ⟨h3, h4⟩ := ih h2
    exact ⟨h1.trans h3, h4⟩

/-- Claiming back the first `n` frames sets exactly their bits. -/
theorem frameTest_foldl_frameMarkUsed (p : Pmm) (n g : ℕ) :
    ((List.range n).foldl frameMarkUsed p).frameTest g =
      (p.frameTest g || (decide (g < n) && decide (g < p.totalFrames))) := by
  induction n with
  | zero => simp
  | succ n ih =>
    have hshape : ((List.range n).foldl frameMarkUsed p).totalFrames = p.totalFrames := by
      clear ih
      induction n with
      | zero => rfl
      | succ n ih =>
        rw [List.range_succ, List.foldl_append, List.foldl_cons, List.foldl_nil,
          (frameMarkUsed_shape _ n).2.1, ih]
    rw [List.range_succ, List.foldl_append, List.foldl_cons, List.foldl_nil,
      frameTest_frameMarkUsed, ih, hshape]
    by_cases h1 : g = n
    · subst h1
      simp
    · simp only [h1, decide_false, Bool.false_and, Bool.or_false,
        show g < n + 1 ↔ g < n by omega]

theorem pmmInit_shape_padded (img : KernelImage) (mm : MemMap) (ram : Bitmap) :
    SameShape (allUsed img mm ram) (pmmInit img mm ram) ∧ (pmmInit img mm ram).Padded := by
  obtain ⟨h1, h2⟩ := foldl_freeRegion_shape_padded mm.regions (allUsed_padded img mm ram)
  obtain ⟨h3, h4⟩ := foldl_shape_padded (fun p f => p.frameMarkUsed_shape f)
    (fun p f hp => hp.frameMarkUsed f)
    (List.range ((mm.regions.foldl freeRegion (allUsed img mm ram)).lastReservedFrame + 1)) h2
  exact ⟨h1.trans h3, h4⟩

theorem pmmInit_sized (img : KernelImage) (mm : MemMap) (ram : Bitmap) :
    (pmmInit img mm ram).Sized :=
  (allUsed_sized img mm ram).of_shape (pmmInit_shape_padded img mm ram).1

/-- The bitmap ends, without wrapping, below the top of the address space. -/
theorem pmmInit_bitmap_end (img : KernelImage) (mm : MemMap) (ram : Bitmap) :
    (pmmInit img mm ram).bitmapAddr + (pmmInit img mm ram).bitmapSize < 2 ^ 32 := by
  obtain ⟨h1, -, h3⟩ := (pmmInit_shape_padded img mm ram).1
  have hsize := (allUsed_sized img mm ram).small
  have hroom := img.room
  rw [h1, h3]
  have haddr : (allUsed img mm ram).bitmapAddr = (img.kernelEnd + 4095) / 4096 * 4096 := by
    simp only [allUsed, frameSize]
    rw [show img.kernelEnd + 4096 - 1 = img.kernelEnd + 4095 by omega, u32_of_lt (by omega),
      show (4096 - 1 : ℕ) = 2 ^ 12 - 1 by decide, and_lnot32 (by decide) (by omega)]
    rfl
  rw [haddr]
  omega

/-- `pmmInit` leaves every frame through the end of the bitmap used. -/
theorem pmmInit_reserved (img : KernelImage) (mm : MemMap) (ram : Bitmap) {f : ℕ}
    (hf : f ≤ ((pmmInit img mm ram).bitmapAddr + (pmmInit img mm ram).bitmapSize) / 4096)
    (hlt : f < (pmmInit img mm ram).totalFrames) : (pmmInit img mm ram).frameTest f = true := by
  have hend := pmmInit_bitmap_end img mm ram
  obtain ⟨h1, h2, h3⟩ := (pmmInit_shape_padded img mm ram).1
  obtain ⟨⟨g1, g2, g3⟩, -⟩ := foldl_freeRegion_shape_padded mm.regions (allUsed_padded img mm ram)
  unfold pmmInit
  rw [frameTest_foldl_frameMarkUsed]
  have hlast : (mm.regions.foldl freeRegion (allUsed img mm ram)).lastReservedFrame =
      ((pmmInit img mm ram).bitmapAddr + (pmmInit img mm ram).bitmapSize) / 4096 := by
    unfold lastReservedFrame
    rw [g1, g3, ← h1, ← h3, u32_of_lt hend]
  rw [hlast, g2, ← h2]
  simp [hlt, Nat.lt_succ_of_le hf]

end Pmm

/-! ## Runs with outstanding frames -/

/-- The allocator and the addresses its clients hold. -/
structure FrameState where
  pmm : Pmm
  out : List ℕ

/-- A client asks for a frame, or gives back one it holds. -/
inductive FrameStep : FrameState → FrameState → Prop
  | alloc (s : FrameState) :
      FrameStep s ⟨s.pmm.pmmAllocFrame.2,
        if s.pmm.pmmAllocFrame.1 = 0 then s.out else s.pmm.pmmAllocFrame.1 :: s.out⟩
  | free (s : FrameState) (a : ℕ) (h : a ∈ s.out) :
      FrameStep s ⟨s.pmm.pmmFreeFrame a, s.out.erase a⟩

/-- The bitmap is what `p₀` left used together with what is outstanding. -/
structure FrameInv (p₀ : Pmm) (s : FrameState) : Prop where
  shape : Pmm.SameShape p₀ s.pmm
  padded : s.pmm.Padded
  used : ∀ f < p₀.totalFrames,
    s.pmm.frameTest f = true ↔ p₀.frameTest f = true ∨ 4096 * f ∈ s.out
  held : ∀ a ∈ s.out, ∃ f < p₀.totalFrames, a = 4096 * f ∧ p₀.frameTest f = false
  nodup : s.out.Nodup

namespace FrameInv

variable {p₀ : Pmm} {s t : FrameState}

theorem start (hp : p₀.Padded) : FrameInv p₀ ⟨p₀, []⟩ where
  shape := Pmm.SameShape.refl p₀
  padded := hp
  used f _ := by simp
  held a ha := by simp at ha
  nodup := List.nodup_nil

theorem frame_ne_zero (h0 : p₀.frameTest 0 = true ∨ p₀.totalFrames = 0) {f : ℕ}
    (hf : f < p₀.totalFrames) (hfree : p₀.frameTest f = false) : f ≠ 0 := by
  rintro rfl
  rcases h0 with h0 | h0
  · simp [h0] at hfree
  · omega

/-- Handing out the least free frame keeps the invariant. -/
theorem mark (h : FrameInv p₀ s) {f : ℕ} (hf : f < p₀.totalFrames)
    (hfree : s.pmm.frameTest f = false) : FrameInv p₀
      ⟨s.pmm.frameMarkUsed f, 4096 * f :: s.out⟩ := by
  have hnot : ¬ (p₀.frameTest f = true ∨ 4096 * f ∈ s.out) := fun hu => by
    simp [(h.used f hf).2 hu] at hfree
  refine ⟨h.shape.trans (s.pmm.frameMarkUsed_shape f), h.padded.frameMarkUsed f,
    fun g hg => ?_, fun a ha => ?_, List.nodup_cons.2 ⟨fun hm => hnot (Or.inr hm), h.nodup⟩⟩
  · rw [Pmm.frameTest_frameMarkUsed, Bool.or_eq_true, h.used g hg, List.mem_cons]
    have hcong : 4096 * g = 4096 * f ↔ g = f := by omega
    simp only [h.shape.2.1, hf, decide_true, Bool.and_true, decide_eq_true_eq, hcong]
    tauto
  · rcases List.mem_cons.1 ha with rfl | ha
    · exact ⟨f, hf, rfl, by simpa using fun hu => hnot (Or.inl hu)⟩
    · exact h.held a ha

/-- Taking back an outstanding frame keeps the invariant. -/
theorem unmark (h : FrameInv p₀ s) {a : ℕ} (ha : a ∈ s.out) :
    FrameInv p₀ ⟨s.pmm.pmmFreeFrame a, s.out.erase a⟩ := by
  obtain ⟨f, hf, rfl, hfree⟩ := h.held a ha
  have hdiv : 4096 * f / 4096 = f := Nat.mul_div_cancel_left f (by decide)
  unfold Pmm.pmmFreeFrame
  rw [hdiv]
  refine ⟨h.shape.trans (s.pmm.frameMarkFree_shape f), h.padded.frameMarkFree f,
    fun g hg => ?_, fun b hb => h.held b (List.mem_of_mem_erase hb), h.nodup.erase _⟩
  rw [Pmm.frameTest_frameMarkFree, Bool.and_eq_true, h.used g hg, h.nodup.mem_erase_iff]
  by_cases hgf : g = f
  · subst hgf
    simp [h.shape.2.1, hf, hfree]
  · simp [hgf]

theorem step (hs : p₀.Sized) (h0 : p₀.frameTest 0 = true ∨ p₀.totalFrames = 0)
    (h : FrameInv p₀ s) (ht : FrameStep s t) : FrameInv p₀ t := by
  cases ht with
  | alloc =>
    rcases Pmm.pmmAllocFrame_cases (hs.of_shape h.shape) h.padded with ⟨e, -⟩ | ⟨f, hf, e⟩
    · rw [e]
      exact h
    · obtain ⟨hlt, hfree⟩ := hf.1
      rw [h.shape.2.1] at hlt
      have hp : p₀.frameTest f = false := by
        by_contra hu
        simp [(h.used f hlt).2 (Or.inl (by simpa using hu))] at hfree
      have hne := frame_ne_zero h0 hlt hp
      rw [e]
      simpa [hne] using h.mark hlt hfree
  | free a ha => exact h.unmark ha

end FrameInv

namespace Pmm

theorem pmmInit_frame_zero (img : KernelImage) (mm : MemMap) (ram : Bitmap) :
    (pmmInit img mm ram).frameTest 0 = true ∨ (pmmInit img mm ram).totalFrames = 0 := by
  rcases Nat.eq_zero_or_pos (pmmInit img mm ram).totalFrames with h | h
  · exact Or.inr h
  · exact Or.inl (pmmInit_reserved img mm ram (Nat.zero_le _) h)

end Pmm

/-- The runs of the allocator after `pmmInit`. -/
def FrameReach (img : KernelImage) (mm : MemMap) (ram : Bitmap) : FrameState → Prop :=
  Reach (fun s => s = ⟨Pmm.pmmInit img mm ram, []⟩) FrameStep

theorem FrameReach.inv {img : KernelImage} {mm : MemMap} {ram : Bitmap} {s : FrameState}
    (h : FrameReach img mm ram s) : FrameInv (Pmm.pmmInit img mm ram) s := by
  refine Reach.invariant h ?_ ?_
  · rintro s rfl
    exact FrameInv.start (Pmm.pmmInit_shape_padded img mm ram).2
  · intro s t _ hs ht
    exact hs.step (Pmm.pmmInit_sized img mm ram) (Pmm.pmmInit_frame_zero img mm ram) ht

/-- **Exclusive and complete allocation.** In every run in which clients free only what they hold,
`pmmAllocFrame` fails exactly when no frame is free, and then changes nothing; otherwise it hands
out the least free frame, which is in range, above the bitmap, not outstanding and not reserved at
boot. The word-skipping scan is the plain scan and never stops out of range. -/
theorem pmmAllocFrame_exclusive (img : KernelImage) (mm : MemMap) (ram : Bitmap) {s : FrameState}
    (h : FrameReach img mm ram s) :
    (s.pmm.pmmAllocFrame.1 = 0 ↔ ∀ f < s.pmm.totalFrames, s.pmm.frameTest f = true) ∧
    (s.pmm.pmmAllocFrame.1 = 0 → s.pmm.pmmAllocFrame.2 = s.pmm) ∧
    (s.pmm.pmmAllocFrame.1 ≠ 0 → ∃ f, s.pmm.pmmAllocFrame = (4096 * f, s.pmm.frameMarkUsed f) ∧
      IsLeast {g | g < s.pmm.totalFrames ∧ s.pmm.frameTest g = false} f ∧
      (s.pmm.bitmapAddr + s.pmm.bitmapSize) / 4096 < f ∧
      4096 * f ∉ s.out ∧ (Pmm.pmmInit img mm ram).frameTest f = false) ∧
    s.pmm.scan = s.pmm.naiveScan ∧
    (∀ frame, s.pmm.scan = some frame → frame < s.pmm.totalFrames) ∧
    s.out.Nodup := by
  have hinv := h.inv
  have hsized := (Pmm.pmmInit_sized img mm ram).of_shape hinv.shape
  -- a free frame was free at boot, is not outstanding and is not reserved
  have hfree : ∀ f < s.pmm.totalFrames, s.pmm.frameTest f = false →
      (Pmm.pmmInit img mm ram).frameTest f = false ∧ 4096 * f ∉ s.out ∧
        (s.pmm.bitmapAddr + s.pmm.bitmapSize) / 4096 < f ∧ f ≠ 0 := by
    intro f hf hff
    rw [hinv.shape.2.1] at hf
    have hnot : ¬ ((Pmm.pmmInit img mm ram).frameTest f = true ∨ 4096 * f ∈ s.out) := fun hu => by
      simp [(hinv.used f hf).2 hu] at hff
    have h1 : (Pmm.pmmInit img mm ram).frameTest f = false := by
      simpa using fun hu => hnot (Or.inl hu)
    refine ⟨h1, fun hm => hnot (Or.inr hm), ?_,
      FrameInv.frame_ne_zero (Pmm.pmmInit_frame_zero img mm ram) hf h1⟩
    rw [hinv.shape.1, hinv.shape.2.2]
    by_contra hle
    simp [Pmm.pmmInit_reserved img mm ram (not_lt.1 hle) hf] at h1
  have hinside : ∀ frame, s.pmm.scan = some frame → frame < s.pmm.totalFrames :=
    fun frame hframe => ((Pmm.scan_eq_some hsized hinv.padded).1 hframe).1.1
  rcases Pmm.pmmAllocFrame_cases hsized hinv.padded with ⟨e, hall⟩ | ⟨f, hf, e⟩
  · rw [e]
    exact ⟨⟨fun _ => hall, fun _ => rfl⟩, fun _ => rfl, fun h0 => absurd rfl h0,
      Pmm.scan_eq_naiveScan hsized, hinside, hinv.nodup⟩
  · obtain ⟨h1, h2, h3, hne⟩ := hfree f hf.1.1 hf.1.2
    have haddr : 4096 * f ≠ 0 := by omega
    rw [e]
    refine ⟨⟨fun h0 => absurd h0 haddr, fun hall => ?_⟩, fun h0 => absurd h0 haddr,
      fun _ => ⟨f, rfl, hf, h3, h2, h1⟩, Pmm.scan_eq_naiveScan hsized, hinside, hinv.nodup⟩
    have hused := hall f hf.1.1
    rw [hf.1.2] at hused
    cases hused

/-! ## What every run keeps of the allocator's variables -/

namespace Pmm

/-- The allocator's variables are consistent, and frame 0 is not free. -/
structure Sound (p : Pmm) : Prop where
  sized : p.Sized
  padded : p.Padded
  zero : p.frameTest 0 = true ∨ p.totalFrames = 0
  counter : p.usedFrames < 2 ^ 32

theorem frameMarkUsed_counter {p : Pmm} (h : p.usedFrames < 2 ^ 32) (f : ℕ) :
    (p.frameMarkUsed f).usedFrames < 2 ^ 32 := by
  unfold frameMarkUsed
  split_ifs
  exacts [h, u32_lt _, h]

theorem frameMarkFree_counter {p : Pmm} (h : p.usedFrames < 2 ^ 32) (f : ℕ) :
    (p.frameMarkFree f).usedFrames < 2 ^ 32 := by
  unfold frameMarkFree
  split_ifs
  exacts [h, u32_lt _, h]

theorem freeRegion_counter {p : Pmm} (h : p.usedFrames < 2 ^ 32) (r : Region) :
    (p.freeRegion r).usedFrames < 2 ^ 32 := by
  unfold freeRegion
  split_ifs
  · exact h
  · exact List.foldlRecOn (motive := fun q : Pmm => q.usedFrames < 2 ^ 32) _ _ h
      fun q hq f _ => frameMarkFree_counter hq _

theorem pmmInit_counter (img : KernelImage) (mm : MemMap) (ram : Bitmap) :
    (pmmInit img mm ram).usedFrames < 2 ^ 32 := by
  have hall : (allUsed img mm ram).usedFrames < 2 ^ 32 :=
    (allUsed_sized img mm ram).total_lt.trans (by decide)
  have hfreed := List.foldlRecOn (motive := fun q : Pmm => q.usedFrames < 2 ^ 32) mm.regions
    freeRegion hall fun q hq r _ => freeRegion_counter hq r
  exact List.foldlRecOn (motive := fun q : Pmm => q.usedFrames < 2 ^ 32) _ _ hfreed
    fun q hq f _ => frameMarkUsed_counter hq f

namespace Sound

variable {p : Pmm} {f : ℕ}

theorem frameMarkUsed (h : p.Sound) (f : ℕ) : (p.frameMarkUsed f).Sound where
  sized := h.sized.of_shape (p.frameMarkUsed_shape f)
  padded := h.padded.frameMarkUsed f
  zero := by
    rw [frameTest_frameMarkUsed, (p.frameMarkUsed_shape f).2.1]
    exact h.zero.imp_left fun h0 => by rw [h0, Bool.true_or]
  counter := frameMarkUsed_counter h.counter f

theorem frameMarkFree (h : p.Sound) (hf : f ≠ 0) : (p.frameMarkFree f).Sound where
  sized := h.sized.of_shape (p.frameMarkFree_shape f)
  padded := h.padded.frameMarkFree f
  zero := by
    rw [frameTest_frameMarkFree, (p.frameMarkFree_shape f).2.1]
    exact h.zero.imp_left fun h0 => by simp [h0, hf.symm]
  counter := frameMarkFree_counter h.counter f

/-- **Giving back the frame just taken** restores the allocator. -/
theorem frameMarkFree_frameMarkUsed (h : p.Sound) (hf : f < p.totalFrames)
    (hfree : p.frameTest f = false) : (p.frameMarkUsed f).frameMarkFree f = p := by
  have hbit : p.bitmap.get f = false := by rw [← frameTest_eq, hfree]
  have hused : (p.frameMarkUsed f).frameTest f = true := by
    rw [frameTest_frameMarkUsed]
    simp [hf]
  rw [frameMarkFree_of_used ((p.frameMarkUsed_shape f).2.1 ▸ hf) hused,
    frameMarkUsed_of_free hf hfree]
  simp only [Bitmap.clearBit_setBit hbit, sub32_u32_succ h.counter]

/-- What `pmmAllocFrame` does. -/
theorem pmmAllocFrame_spec (h : p.Sound) :
    (p.pmmAllocFrame = (0, p) ∧ ∀ f < p.totalFrames, p.frameTest f = true) ∨
      ∃ f, f ≠ 0 ∧ IsLeast {g | g < p.totalFrames ∧ p.frameTest g = false} f ∧
        p.pmmAllocFrame = (4096 * f, p.frameMarkUsed f) := by
  rcases pmmAllocFrame_cases h.sized h.padded with hnone | ⟨f, hf, e⟩
  · exact Or.inl hnone
  · exact Or.inr ⟨f, FrameInv.frame_ne_zero h.zero hf.1.1 hf.1.2, hf, e⟩

end Sound

theorem pmmFreeFrame_mul (p : Pmm) (f : ℕ) : p.pmmFreeFrame (4096 * f) = p.frameMarkFree f := by
  rw [pmmFreeFrame, Nat.mul_div_cancel_left f (by decide)]

end Pmm

theorem FrameReach.sound {img : KernelImage} {mm : MemMap} {ram : Bitmap} {s : FrameState}
    (h : FrameReach img mm ram s) : s.pmm.Sound := by
  have hinv := h.inv
  refine ⟨(Pmm.pmmInit_sized img mm ram).of_shape hinv.shape, hinv.padded, ?_, ?_⟩
  · rw [hinv.shape.2.1]
    rcases Pmm.pmmInit_frame_zero img mm ram with h0 | h0
    · rcases Nat.eq_zero_or_pos (Pmm.pmmInit img mm ram).totalFrames with ht | ht
      · exact Or.inr ht
      · exact Or.inl ((hinv.used 0 ht).2 (Or.inl h0))
    · exact Or.inr h0
  · refine Reach.invariant (I := fun s => s.pmm.usedFrames < 2 ^ 32) h ?_ ?_
    · rintro s rfl
      exact Pmm.pmmInit_counter img mm ram
    · intro s t hs hc ht
      cases ht with
      | alloc =>
        rcases Pmm.pmmAllocFrame_cases ((Pmm.pmmInit_sized img mm ram).of_shape
          (FrameReach.inv hs).shape) (FrameReach.inv hs).padded with ⟨e, -⟩ | ⟨f, -, e⟩
        · rw [e]
          exact hc
        · rw [e]
          exact Pmm.frameMarkUsed_counter hc f
      | free a ha => exact Pmm.frameMarkFree_counter hc _

theorem FrameReach.init (img : KernelImage) (mm : MemMap) (ram : Bitmap) :
    FrameReach img mm ram ⟨Pmm.pmmInit img mm ram, []⟩ := Reach.start rfl

/-- A machine of 24 frames, two frames taken and the first of them given back: the next frame handed
out is that one, the least that is free. -/
theorem pmmAllocFrame_exclusive_first :
    ∃ s : FrameState, FrameReach ⟨0x1000, by decide⟩ ⟨[⟨0#32, 0x18000#32, 1#32⟩], 0x18000#32⟩
        (fun _ => 0#32) s ∧ s.out = [0x3000] ∧
      IsLeast {g | g < s.pmm.totalFrames ∧ s.pmm.frameTest g = false} 2 ∧
      s.pmm.pmmAllocFrame = (0x2000, s.pmm.frameMarkUsed 2) ∧ s.pmm.scan = s.pmm.naiveScan := by
  have h₁ := Reach.next (FrameReach.init ⟨0x1000, by decide⟩
    ⟨[⟨0#32, 0x18000#32, 1#32⟩], 0x18000#32⟩ (fun _ => 0#32)) (FrameStep.alloc _)
  have h₂ := Reach.next h₁ (FrameStep.alloc _)
  have h₃ := Reach.next h₂ (FrameStep.free _ 0x2000 (by decide +kernel))
  obtain ⟨-, -, hgrant, hscan, -⟩ := pmmAllocFrame_exclusive _ _ _ h₃
  obtain ⟨f, hf, hleast, -⟩ := hgrant (by decide +kernel)
  have haddr := congrArg Prod.fst hf
  obtain rfl : f = 2 := by
    refine Nat.eq_of_mul_eq_mul_left (show 0 < 4096 by decide) (haddr.symm.trans ?_)
    decide +kernel
  exact ⟨_, h₃, by decide +kernel, hleast, hf, hscan⟩

end JarvisOS
