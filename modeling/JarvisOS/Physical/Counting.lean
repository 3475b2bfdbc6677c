import JarvisOS.Physical.FrameExclusive

/-!
# The counter of used frames

`used_frames` is kept by the two helpers that mark a frame, and never recomputed. `Pmm.Tallied` says
that it is the number of bits set below `totalFrames`, and that the rest of the last word is full.
The marks keep it, whatever the frame and however often they are repeated, so `pmmInit` establishes
it and every sequence of calls keeps it (`frame_accounting_exact`).
-/

namespace JarvisOS

open Foundations

namespace Pmm

/-- How many frames the bitmap has in use. -/
def usedCount (p : Pmm) : ℕ := Nat.count (fun f => p.frameTest f = true) p.totalFrames

/-- How many frames the bitmap has free. -/
def freeCount (p : Pmm) : ℕ := Nat.count (fun f => p.frameTest f = false) p.totalFrames

theorem usedCount_eq (p : Pmm) : p.usedCount = p.bitmap.count p.totalFrames := by
  simp only [usedCount, frameTest_eq, Bitmap.count]

/-- A frame is in use or free. -/
theorem usedCount_add_freeCount (p : Pmm) : p.usedCount + p.freeCount = p.totalFrames := by
  rw [usedCount_eq]
  simp only [freeCount, frameTest_eq]
  exact p.bitmap.count_add_count_clear p.totalFrames

theorem usedCount_le (p : Pmm) : p.usedCount ≤ p.totalFrames := Nat.count_le _

/-- Marking a free frame used adds one to the count. -/
theorem usedCount_setBit {p : Pmm} {f : ℕ} (used : ℕ) (hf : f < p.totalFrames)
    (hfree : p.frameTest f = false) :
    usedCount { p with bitmap := p.bitmap.setBit f, usedFrames := used } = p.usedCount + 1 := by
  rw [usedCount_eq, usedCount_eq]
  exact Bitmap.count_setBit hf (by rw [← frameTest_eq, hfree])

/-- Marking a used frame free takes one off the count. -/
theorem usedCount_clearBit {p : Pmm} {f : ℕ} (used : ℕ) (hf : f < p.totalFrames)
    (hused : p.frameTest f = true) :
    usedCount { p with bitmap := p.bitmap.clearBit f, usedFrames := used } + 1 = p.usedCount := by
  rw [usedCount_eq, usedCount_eq]
  exact Bitmap.count_clearBit hf (by rw [← frameTest_eq, hused])

/-- **The counter is exact**, and the bits beyond the last frame are set. -/
structure Tallied (p : Pmm) : Prop where
  sized : p.Sized
  padded : p.Padded
  tally : p.usedFrames = p.usedCount

namespace Tallied

variable {p : Pmm} {f : ℕ}

/-- The counter stays far below the end of the word. -/
theorem usedFrames_lt (h : p.Tallied) : p.usedFrames < 2 ^ 20 :=
  h.tally ▸ p.usedCount_le.trans_lt h.sized.total_lt

/-- A used frame is counted: taking it back does not underflow. -/
theorem usedFrames_pos (h : p.Tallied) (hf : f < p.totalFrames) (hused : p.frameTest f = true) :
    1 ≤ p.usedFrames := by
  have := usedCount_clearBit 0 hf hused
  rw [h.tally]
  omega

/-- **Marking a frame used keeps the tally**, in range or not, used or not. -/
theorem frameMarkUsed (h : p.Tallied) (f : ℕ) : (p.frameMarkUsed f).Tallied := by
  refine ⟨h.sized.of_shape (p.frameMarkUsed_shape f), h.padded.frameMarkUsed f, ?_⟩
  rcases le_or_gt p.totalFrames f with hout | hf
  · rw [frameMarkUsed_of_le hout]
    exact h.tally
  cases hused : p.frameTest f with
  | true =>
    rw [frameMarkUsed_of_used hused]
    exact h.tally
  | false =>
    have hlt := h.usedFrames_lt
    rw [frameMarkUsed_of_free hf hused, usedCount_setBit _ hf hused, ← h.tally]
    exact u32_of_lt (by omega)

/-- **Marking a frame free keeps the tally**, in range or not, free or not. -/
theorem frameMarkFree (h : p.Tallied) (f : ℕ) : (p.frameMarkFree f).Tallied := by
  refine ⟨h.sized.of_shape (p.frameMarkFree_shape f), h.padded.frameMarkFree f, ?_⟩
  rcases le_or_gt p.totalFrames f with hout | hf
  · rw [frameMarkFree_of_le hout]
    exact h.tally
  cases hused : p.frameTest f with
  | true =>
    have hcount := usedCount_clearBit (sub32 p.usedFrames 1) hf hused
    have hlt := h.usedFrames_lt
    rw [frameMarkFree_of_used hf hused]
    have hsub : sub32 p.usedFrames 1 = p.usedFrames - 1 :=
      sub32_of_le (h.usedFrames_pos hf hused) (by omega)
    exact hsub.trans (Nat.eq_sub_of_add_eq (hcount.trans h.tally.symm)).symm
  | false =>
    rw [frameMarkFree_of_free hused]
    exact h.tally

theorem freeRegion (h : p.Tallied) (r : Region) : (p.freeRegion r).Tallied := by
  unfold Pmm.freeRegion
  split_ifs
  · exact h
  · exact List.foldlRecOn _ _ h fun p hp f _ => hp.frameMarkFree _

theorem pmmAllocFrame (h : p.Tallied) : p.pmmAllocFrame.2.Tallied := by
  rcases pmmAllocFrame_cases h.sized h.padded with ⟨e, -⟩ | ⟨f, -, e⟩
  · rw [e]
    exact h
  · rw [e]
    exact h.frameMarkUsed f

theorem pmmFreeFrame (h : p.Tallied) (a : ℕ) : (p.pmmFreeFrame a).Tallied :=
  h.frameMarkFree (a / frameSize)

/-- `pmm_free_frames` does not wrap: it is the number of clear bits. -/
theorem pmmFreeFrames_eq (h : p.Tallied) : p.pmmFreeFrames = p.freeCount := by
  have hsum := p.usedCount_add_freeCount
  have hlt := h.sized.total_lt
  rw [pmmFreeFrames, h.tally, sub32_of_le p.usedCount_le (by omega)]
  omega

end Tallied

/-- With all bits set every frame is counted. -/
theorem allUsed_tallied (img : KernelImage) (mm : MemMap) (ram : Bitmap) :
    (allUsed img mm ram).Tallied := by
  have hsized := allUsed_sized img mm ram
  refine ⟨hsized, allUsed_padded img mm ram, ?_⟩
  have hall : ∀ f < (allUsed img mm ram).totalFrames, (allUsed img mm ram).frameTest f = true :=
    fun f hf => frameTest_allUsed_of_lt img mm ram (hf.trans_le hsized.covers)
  rw [usedCount, Nat.count_iff_forall.2 hall]
  rfl

theorem pmmInit_tallied (img : KernelImage) (mm : MemMap) (ram : Bitmap) :
    (pmmInit img mm ram).Tallied := by
  have hfreed := List.foldlRecOn mm.regions freeRegion (allUsed_tallied img mm ram)
    fun p hp r _ => hp.freeRegion r
  exact List.foldlRecOn _ _ hfreed fun p hp f _ => hp.frameMarkUsed f

end Pmm

/-! ## Sequences of calls -/

/-- A call of the allocator's clients: any address may be given back. -/
inductive FrameCall
  | alloc
  | free (a : ℕ)

/-- The allocator after a call. -/
def FrameCall.apply (p : Pmm) : FrameCall → Pmm
  | alloc => p.pmmAllocFrame.2
  | free a => p.pmmFreeFrame a

theorem FrameCall.tallied {p : Pmm} (h : p.Tallied) (c : FrameCall) : (c.apply p).Tallied := by
  cases c with
  | alloc => exact h.pmmAllocFrame
  | free a => exact h.pmmFreeFrame a

/-- The allocator after `pmm_init` and a sequence of calls. -/
def framesAfter (img : KernelImage) (mm : MemMap) (ram : Bitmap) (calls : List FrameCall) : Pmm :=
  calls.foldl FrameCall.apply (.pmmInit img mm ram)

theorem framesAfter_tallied (img : KernelImage) (mm : MemMap) (ram : Bitmap)
    (calls : List FrameCall) : (framesAfter img mm ram calls).Tallied :=
  List.foldlRecOn calls FrameCall.apply (Pmm.pmmInit_tallied img mm ram) fun _ hp c _ =>
    c.tallied hp

/-- **Frame accounting is exact.** For every memory map and after every sequence of calls, with any
addresses given back: the counter of used frames is the number of bits set below `totalFrames`,
`pmm_free_frames` is the number of clear ones, a frame that can be given back is counted, and the
bits of the bitmap beyond the last frame are set. -/
theorem frame_accounting_exact (img : KernelImage) (mm : MemMap) (ram : Bitmap)
    (calls : List FrameCall) :
    (framesAfter img mm ram calls).pmmUsedFrames = (framesAfter img mm ram calls).usedCount ∧
      (framesAfter img mm ram calls).pmmFreeFrames = (framesAfter img mm ram calls).freeCount ∧
      (∀ f < (framesAfter img mm ram calls).totalFrames,
        (framesAfter img mm ram calls).frameTest f = true →
          1 ≤ (framesAfter img mm ram calls).usedFrames) ∧
      ∀ f, (framesAfter img mm ram calls).totalFrames ≤ f →
        f < (framesAfter img mm ram calls).bitmapSize * 8 →
          (framesAfter img mm ram calls).frameTest f = true := by
  have h := framesAfter_tallied img mm ram calls
  exact ⟨h.tally, h.pmmFreeFrames_eq, fun f hf hused => h.usedFrames_pos hf hused, h.padded⟩

end JarvisOS
