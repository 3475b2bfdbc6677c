import JarvisOS.Foundations.Word
import JarvisOS.Foundations.Bitmap

/-!
# The physical frame allocator

One bit per 4 KB frame, set when the frame is in use. `pmmInit` marks everything used, frees the
frames of the type-1 regions of the memory map and claims back everything from address 0 through
the end of the bitmap. `pmmAllocFrame` hands out the first free frame it meets, scanning word by
word; `pmmFreeFrame` clears one bit. All three go through `frameMarkUsed` and `frameMarkFree`,
which ignore frames out of range and keep the counter of used frames.
-/

namespace JarvisOS

open Foundations

/-- `FRAME_SIZE`. -/
abbrev frameSize : ℕ := 4096

/-- A region of the memory map as recorded at boot. -/
structure Region where
  base : BitVec 32
  len : BitVec 32
  type : BitVec 32
  deriving DecidableEq

/-- What the memory map left for the allocator: the recorded regions and the highest address. -/
structure MemMap where
  regions : List Region
  highest : BitVec 32

/-- The kernel image as the linker placed it. Its end leaves room for the frame bitmap (at most
128 KB, and up to one page of alignment) below the top of the address space. -/
structure KernelImage where
  kernelEnd : ℕ
  room : kernelEnd + 2 ^ 18 ≤ 2 ^ 32

/-- The allocator's variables. `bitmap w` is word `w` of the bitmap. -/
structure Pmm where
  bitmap : Bitmap
  bitmapAddr : ℕ
  totalFrames : ℕ
  usedFrames : ℕ
  bitmapSize : ℕ

namespace Pmm

/-! ## Bit helpers -/

/-- `frame_test`. -/
def frameTest (p : Pmm) (frame : ℕ) : Bool :=
  (p.bitmap (frame / 32) >>> (frame % 32)) &&& 1#32 != 0#32

/-- `frame_mark_used`. -/
def frameMarkUsed (p : Pmm) (frame : ℕ) : Pmm :=
  if frame ≥ p.totalFrames then p
  else if !p.frameTest frame then
    { p with
      bitmap := Function.update p.bitmap (frame / 32)
        (p.bitmap (frame / 32) ||| 1#32 <<< (frame % 32))
      usedFrames := u32 (p.usedFrames + 1) }
  else p

/-- `frame_mark_free`. -/
def frameMarkFree (p : Pmm) (frame : ℕ) : Pmm :=
  if frame ≥ p.totalFrames then p
  else if p.frameTest frame then
    { p with
      bitmap := Function.update p.bitmap (frame / 32)
        (p.bitmap (frame / 32) &&& ~~~(1#32 <<< (frame % 32)))
      usedFrames := sub32 p.usedFrames 1 }
  else p

/-! ## Initialisation -/

/-- The loop that fills the bitmap with ones. -/
def fillBitmap (b : Bitmap) (words : ℕ) : Bitmap :=
  (List.range words).foldl (fun b i => Function.update b i 0xFFFFFFFF#32) b

/-- The body of the loop over the regions: free the frames of a type-1 region. -/
def freeRegion (p : Pmm) (r : Region) : Pmm :=
  if r.type ≠ 1#32 then p
  else
    let startFrame := r.base.toNat / frameSize
    let frameCount := r.len.toNat / frameSize
    (List.range frameCount).foldl (fun p f => p.frameMarkFree (u32 (startFrame + f))) p

/-- The bitmap before any region is freed; `ram` is what memory held at the bitmap's place. -/
def allUsed (img : KernelImage) (mm : MemMap) (ram : Bitmap) : Pmm :=
  let totalFrames := mm.highest.toNat / frameSize
  let bitmapSize := u32 (totalFrames + 31) / 32 * 4
  { bitmap := fillBitmap ram (bitmapSize / 4)
    bitmapAddr := u32 (img.kernelEnd + frameSize - 1) &&& lnot32 (frameSize - 1)
    totalFrames := totalFrames
    usedFrames := totalFrames
    bitmapSize := bitmapSize }

/-- The last frame claimed back at boot. -/
def lastReservedFrame (p : Pmm) : ℕ := u32 (p.bitmapAddr + p.bitmapSize) / frameSize

/-- `pmm_init`. -/
def pmmInit (img : KernelImage) (mm : MemMap) (ram : Bitmap) : Pmm :=
  let p := mm.regions.foldl freeRegion (allUsed img mm ram)
  (List.range (p.lastReservedFrame + 1)).foldl frameMarkUsed p

/-! ## Allocation -/

/-- The two nested loops of `pmm_alloc_frame`: the frame they stop at. -/
def scan (p : Pmm) : Option ℕ :=
  (List.range (p.bitmapSize / 4)).findSome? fun w =>
    if p.bitmap w = 0xFFFFFFFF#32 then none
    else ((List.range 32).find? fun b => !((p.bitmap w >>> b) &&& 1#32 != 0#32)).map fun b =>
      u32 (w * 32 + b)

/-- `pmm_alloc_frame`: the physical address of a frame, or `0`. -/
def pmmAllocFrame (p : Pmm) : ℕ × Pmm :=
  match p.scan with
  | none => (0, p)
  | some frame =>
    if frame ≥ p.totalFrames then (0, p)
    else (u32 (frame * frameSize), p.frameMarkUsed frame)

/-- `pmm_free_frame`. -/
def pmmFreeFrame (p : Pmm) (addr : ℕ) : Pmm := p.frameMarkFree (addr / frameSize)

/-- `pmm_total_frames`. -/
def pmmTotalFrames (p : Pmm) : ℕ := p.totalFrames

/-- `pmm_used_frames`. -/
def pmmUsedFrames (p : Pmm) : ℕ := p.usedFrames

/-- `pmm_free_frames`. -/
def pmmFreeFrames (p : Pmm) : ℕ := sub32 p.totalFrames p.usedFrames

/-! ## What the helpers do to a frame's bit -/

theorem shift_and_one (v : BitVec 32) (j : ℕ) :
    (((v >>> j) &&& 1#32) != 0#32) = v.getLsbD j := by
  have h : (v >>> j) &&& 1#32 = if v.getLsbD j then 1#32 else 0#32 := by
    refine BitVec.eq_of_getLsbD_eq fun k hk => ?_
    rw [BitVec.getLsbD_and, BitVec.getLsbD_ushiftRight, BitVec.getLsbD_one]
    by_cases hk0 : k = 0
    · subst hk0
      by_cases hv : v.getLsbD j <;> simp [hv]
    · by_cases hv : v.getLsbD j <;> simp [hv, hk0]
  by_cases hv : v.getLsbD j <;> simp [h, hv]

theorem frameTest_eq (p : Pmm) (f : ℕ) : p.frameTest f = p.bitmap.get f :=
  shift_and_one _ _

theorem frameMarkUsed_of_le {p : Pmm} {f : ℕ} (h : p.totalFrames ≤ f) :
    p.frameMarkUsed f = p := if_pos h

theorem frameMarkUsed_of_used {p : Pmm} {f : ℕ} (h : p.frameTest f = true) :
    p.frameMarkUsed f = p := by
  simp [frameMarkUsed, h]

theorem frameMarkUsed_of_free {p : Pmm} {f : ℕ} (hf : f < p.totalFrames)
    (h : p.frameTest f = false) :
    p.frameMarkUsed f =
      { p with bitmap := p.bitmap.setBit f, usedFrames := u32 (p.usedFrames + 1) } := by
  rw [frameMarkUsed, if_neg (by omega), h]
  rfl

theorem frameMarkFree_of_le {p : Pmm} {f : ℕ} (h : p.totalFrames ≤ f) :
    p.frameMarkFree f = p := if_pos h

theorem frameMarkFree_of_free {p : Pmm} {f : ℕ} (h : p.frameTest f = false) :
    p.frameMarkFree f = p := by
  simp [frameMarkFree, h]

theorem frameMarkFree_of_used {p : Pmm} {f : ℕ} (hf : f < p.totalFrames)
    (h : p.frameTest f = true) :
    p.frameMarkFree f =
      { p with bitmap := p.bitmap.clearBit f, usedFrames := sub32 p.usedFrames 1 } := by
  rw [frameMarkFree, if_neg (by omega), h]
  rfl

/-- The part of the allocator that is fixed at boot. -/
def SameShape (p q : Pmm) : Prop :=
  q.bitmapAddr = p.bitmapAddr ∧ q.totalFrames = p.totalFrames ∧ q.bitmapSize = p.bitmapSize

theorem SameShape.refl (p : Pmm) : SameShape p p := ⟨rfl, rfl, rfl⟩

theorem SameShape.trans {p q r : Pmm} (h : SameShape p q) (h' : SameShape q r) : SameShape p r :=
  ⟨h'.1.trans h.1, h'.2.1.trans h.2.1, h'.2.2.trans h.2.2⟩

theorem frameMarkUsed_shape (p : Pmm) (f : ℕ) : SameShape p (p.frameMarkUsed f) := by
  unfold frameMarkUsed
  split_ifs <;> exact ⟨rfl, rfl, rfl⟩

theorem frameMarkFree_shape (p : Pmm) (f : ℕ) : SameShape p (p.frameMarkFree f) := by
  unfold frameMarkFree
  split_ifs <;> exact ⟨rfl, rfl, rfl⟩

/-- Marking a frame used sets its bit and no other. -/
theorem frameTest_frameMarkUsed (p : Pmm) (f g : ℕ) :
    (p.frameMarkUsed f).frameTest g =
      (p.frameTest g || (decide (g = f) && decide (f < p.totalFrames))) := by
  by_cases hf : f < p.totalFrames
  · by_cases h : p.frameTest f = true
    · rw [frameMarkUsed_of_used h]
      by_cases hg : g = f
      · simp [hg, h]
      · simp [hg]
    · rw [frameMarkUsed_of_free hf (by simpa using h), frameTest_eq, frameTest_eq,
        Bitmap.get_setBit]
      simp [hf]
  · rw [frameMarkUsed_of_le (by omega)]
    simp [hf]

/-- Marking a frame free clears its bit and no other. -/
theorem frameTest_frameMarkFree (p : Pmm) (f g : ℕ) :
    (p.frameMarkFree f).frameTest g =
      (p.frameTest g && !(decide (g = f) && decide (f < p.totalFrames))) := by
  by_cases hf : f < p.totalFrames
  · by_cases h : p.frameTest f = true
    · rw [frameMarkFree_of_used hf h, frameTest_eq, frameTest_eq, Bitmap.get_clearBit]
      simp [hf]
    · rw [frameMarkFree_of_free (by simpa using h)]
      by_cases hg : g = f
      · simp [hg, h]
      · simp [hg]
  · rw [frameMarkFree_of_le (by omega)]
    simp [hf]

end Pmm

end JarvisOS
