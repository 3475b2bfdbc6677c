import JarvisOS.Kernel.Identity

/-!
# A failed `kmalloc`

When `kmalloc` returns `0` at once, at the ceiling, or because the first page of a growth was
refused, nothing has changed: the frame taken last is given back exactly. When some pages of the
growth were granted before one was refused, these stay mapped above `brk` and their frames stay in
use. `kmalloc_failure_untouched_iff` says that this is the only case in which a failed call leaves a
trace.
-/

namespace JarvisOS

open Foundations Prog

variable {σ : Type} {s t : HeapState σ} {l : List Seg}

/-! ## The state before the call -/

/-- No block of the list can serve `size` bytes. -/
def NoFit (size : ℕ) (s : HeapState σ) : Prop :=
  ∀ bs, BlockList s.mem s.head s.brk bs → ∀ b ∈ bs, FreeAt s.mem b → sizeAt s.mem b < size

/-- The block list in memory has a block that fits exactly when the list of blocks does. -/
theorem Tiled.noFit_iff (h : Tiled s l) {size : ℕ} :
    NoFit size s ↔ ∀ x ∈ l, ¬ x.Fits size := by
  constructor
  · intro hno x hx hfit
    obtain ⟨pre, post, rfl⟩ := List.append_of_mem hx
    obtain ⟨-, hhead, -⟩ := Holds.append_iff.1 h.headers
    have hlt := hno _ h.blockList (heapStart + Seg.span headerSize pre)
      (by rw [Seg.starts_append]; exact List.mem_append_right _ List.mem_cons_self)
      (hhead.freeAt_iff.2 hfit.1)
    rw [sizeAt, hhead.size] at hlt
    exact absurd hfit.2 (Nat.not_le.2 hlt)
  · intro hno bs hbs b hb hfree
    rw [hbs.visits.unique h.blockList.visits] at hb
    obtain ⟨pre, x, post, rfl, rfl, hx⟩ := h.headers.header_of_mem hb
    rw [hx.freeAt_iff] at hfree
    rw [sizeAt, hx.size]
    exact Nat.not_le.1 fun hle => hno x (by simp) ⟨hfree, hle⟩

/-- What `kmalloc` for `size` bytes should leave as it was when it fails: the block list with its
headers, the break, the mapped pages with their frames, the counters of the page tables and the
frame bitmap with its counter. -/
structure Untouched (s t : HeapState Paging) : Prop where
  blocks : ∀ bs, BlockList s.mem s.head s.brk bs → BlockList t.mem t.head t.brk bs ∧
    ∀ b ∈ bs, ∀ y, b ≤ y → y < b + headerSize → t.mem y = s.mem y
  brk : t.brk = s.brk
  pages : ∀ v < 2 ^ 32, t.env.pagingTranslate v = s.env.pagingTranslate v
  tableCount : t.env.tableCount = s.env.tableCount
  mappedPages : t.env.mappedPages = s.env.mappedPages
  bitmap : ∀ f < s.env.pmm.totalFrames, t.env.pmm.frameTest f = s.env.pmm.frameTest f
  usedFrames : t.env.pmm.usedFrames = s.env.pmm.usedFrames

theorem Untouched.refl (s : HeapState Paging) : Untouched s s :=
  ⟨fun _ h => ⟨h, fun _ _ _ _ _ => rfl⟩, rfl, fun _ _ => rfl, rfl, rfl, fun _ _ => rfl, rfl⟩

/-- `kmalloc` for `size` bytes has to grow the heap, the ceiling allows it, and the frame allocator
and the page tables grant the first page of the growth but not all of its pages. -/
def PartlyGranted (size : ℕ) (s : HeapState Paging) : Prop :=
  s.ready ≠ 0 ∧ NoFit size s ∧ s.brk + growthPages size * pageSize ≤ heapStart + heapMax ∧
    0 < kernelBacking.grants (growthPages size) s.brk s.env ∧
    kernelBacking.grants (growthPages size) s.brk s.env < growthPages size

/-! ## Refused growths -/

/-- A growth refused at its first page changes nothing. -/
theorem VmInv.mapPages_of_refused {boot : Paging} {pages : ℕ → Option ℕ} {held : Set ℕ}
    {s : HeapState Paging} (h : VmInv boot s.env pages held) {count virt : ℕ}
    (hlo : heapStart ≤ virt) (hhi : virt < 2 ^ 32)
    (h0 : (JarvisOS.mapPages kernelBacking count virt s).1 = 0) :
    (JarvisOS.mapPages kernelBacking count virt s).2 = s := by
  cases count with
  | zero => rfl
  | succ count =>
    obtain ⟨hgranted, henv⟩ := mapPage_kernelBacking virt s
    rcases h.mapFresh (h.identityEnd_le hlo) hhi with e | ⟨f, t, e, -⟩
    · rw [e] at hgranted henv
      obtain ⟨⟨hhead, hbrk, hready, hout⟩, hmem⟩ := mapPage_spec (B := kernelBacking) virt s
      rw [mapPages_succ_of_refused hgranted]
      have hmem : (mapPage kernelBacking virt s).2.mem = s.mem :=
        funext fun y => hmem y (Or.inr hgranted)
      obtain ⟨mem, head, brk, ready, env, out⟩ := s
      exact HeapState.mk.injEq .. |>.mpr ⟨hmem, hhead, hbrk, hready, henv, hout⟩
    · rw [e] at hgranted
      rw [mapPages_succ_of_granted hgranted] at h0
      exact absurd h0 (Nat.succ_ne_zero _)

/-- A growth whose first page was granted has taken a frame that was free. -/
theorem VmInv.exists_frame_of_granted {boot : Paging} {pages : ℕ → Option ℕ} {held : Set ℕ}
    {s : HeapState Paging} (h : VmInv boot s.env pages held) {count virt : ℕ}
    (hlo : heapStart ≤ virt) (hhi : virt + count * pageSize < 2 ^ 32)
    (h0 : 0 < (JarvisOS.mapPages kernelBacking count virt s).1) :
    ∃ f < s.env.pmm.totalFrames, s.env.pmm.frameTest f = false ∧
      (JarvisOS.mapPages kernelBacking count virt s).2.env.pmm.frameTest f = true := by
  cases count with
  | zero => exact absurd h0 (Nat.lt_irrefl 0)
  | succ count =>
    obtain ⟨hgranted, henv⟩ := mapPage_kernelBacking virt s
    rcases h.mapFresh (h.identityEnd_le hlo) (by omega) with e | ⟨f, t, e, hmapped, hnext⟩
    · rw [e] at hgranted
      rw [mapPages_succ_of_refused hgranted] at h0
      exact absurd h0 (Nat.lt_irrefl 0)
    · rw [e] at hgranted henv
      have henv : t = (mapPage kernelBacking virt s).2.env := henv.symm
      have hsum : virt + pageSize + count * pageSize = virt + (count + 1) * pageSize := by
        rw [Nat.add_mul]
        omega
      rw [mapPages_succ_of_granted hgranted, u32_of_lt (by omega)]
      obtain ⟨-, hkeeps⟩ := VmInv.mapPages (henv ▸ hnext)
        (show heapStart ≤ virt + pageSize by omega)
        (show virt + pageSize + count * pageSize < 2 ^ 32 by omega)
      exact ⟨f, hmapped.lt, hmapped.free, hkeeps f (henv ▸ hmapped.used)⟩

/-! ## Exactly when a failed call leaves no trace -/

/-- The call of a heap that is ready, by what it may do. -/
theorem Allocated.untouched_iff {boot : Paging} {q : KernelSystem} {n p : ℕ}
    {t : HeapState Paging} {l l' : List Seg} (hinv : HeapInv q l)
    (hvm : ∃ pages held, VmInv boot q.heap.env pages held) (h2 : n ≤ heapMax)
    (ha : Allocated kernelBacking (align8 n) q.heap l p t l') :
    (p = 0 → Untouched q.heap t) ↔ ¬ PartlyGranted (align8 n) q.heap := by
  obtain ⟨pages, held, hvm⟩ := hvm
  have hlo : heapStart ≤ q.heap.brk := hinv.tiled.tiles ▸ Nat.le_add_right _ _
  have hhi := growth_lt_of_le hinv.tiled h2
  unfold PartlyGranted
  rw [hinv.tiled.noFit_iff, ← mapPages_fst]
  cases ha with
  | found ht =>
    exact iff_of_true (fun h0 => absurd h0 ht.payload_ne_zero)
      fun ⟨_, hno, _⟩ => hno _ (by simp) ht.fits
  | grown _ hu _ ht =>
    exact iff_of_true (fun h0 => absurd h0 ht.payload_ne_zero)
      fun ⟨_, _, _, _, hlt⟩ => hlt.ne hu.granted
  | ceiling hno hc =>
    exact iff_of_true (fun _ => Untouched.refl _) fun ⟨_, _, hle, _⟩ => Nat.not_le.2 hc hle
  | refused hno hpass hg hw =>
    rw [u32_of_lt hhi] at hpass
    rcases Nat.eq_zero_or_pos (mapPages kernelBacking (growthPages (align8 n)) q.heap.brk q.heap).1
      with h0 | hpos
    · rw [hvm.mapPages_of_refused hlo hinv.tiled.brk_lt h0]
      exact iff_of_true (fun _ => Untouched.refl _) fun ⟨_, _, _, hpos, _⟩ => hpos.ne' h0
    · refine iff_of_false (fun hun => ?_) (not_not.2 ⟨?_, hno, hpass, hpos, hg⟩)
      · obtain ⟨f, hf, hfree, hused⟩ := hvm.exists_frame_of_granted hlo hhi hpos
        rw [(hun rfl).bitmap f hf, hfree] at hused
        exact Bool.false_ne_true hused
      · rw [hinv.tiled.ready]
        exact Nat.one_ne_zero

/-- **A failed `kmalloc` leaves the system as it was exactly when it grows the heap not at all or as
asked**: in every state of the kernel reached from boot, a call for up to `heapMax` bytes returns,
and if it returns `0`, the block list, the break, the mapped pages, the counters and the frame
bitmap are as before, if and only if the call does not need a growth that is granted in part. -/
theorem kmalloc_failure_untouched_iff {img : KernelImage} {mm : MemMap} {ram : Bitmap}
    {fs : FrameState} (hfs : FrameReach img mm ram fs) {m : Mem}
    (hen : (bootPaging mm fs m).enabled ≠ 0) {q : KernelSystem}
    (h : KernelReach (bootPaging mm fs m) q) {n : ℕ} (h1 : 1 ≤ n) (h2 : n ≤ heapMax) :
    (∃ p t, run (heapAct kernelBacking) (kmalloc n) q.heap = some (p, t)) ∧
      ((∀ t, run (heapAct kernelBacking) (kmalloc n) q.heap = some (0, t) → Untouched q.heap t) ↔
        ¬ PartlyGranted (align8 n) q.heap) := by
  obtain ⟨hheap, hvm⟩ := h.inv hfs hen
  rcases hheap with ⟨hready, -⟩ | ⟨l, hinv⟩
  · have hrun := run_kmalloc_of_not_ready kernelBacking hready n
    refine ⟨⟨0, _, hrun⟩, iff_of_true (fun t ht => ?_) fun hpart => hpart.1 hready⟩
    rw [hrun] at ht
    obtain ⟨-, rfl⟩ := Prod.mk.inj (Option.some.inj ht)
    exact Untouched.refl _
  · obtain ⟨p, t, l', hrun, ha⟩ := runs_kmalloc (B := kernelBacking) hinv.tiled h1
      (h2.trans_lt (by decide)) (growthInWindow_of_le hinv.tiled h2)
    refine ⟨⟨p, t, hrun.1⟩, Iff.trans ?_ (ha.untouched_iff hinv hvm h2)⟩
    constructor
    · rintro hall rfl
      exact hall t hrun.1
    · intro hone u hu
      obtain ⟨rfl, rfl⟩ := hrun.unique hu
      exact hone rfl

/-! ## The small machine -/

/-- On the small machine a call for the whole window fails at the ceiling and leaves no trace. -/
theorem kmalloc_failure_untouched_small : ∃ t,
    run (heapAct kernelBacking) (kmalloc heapMax) smallHeap = some (0, t) ∧
      Untouched smallHeap t := by
  have hrun : run (heapAct kernelBacking) (kmalloc heapMax) smallHeap =
      some (0, after (heapAct kernelBacking) (kmalloc heapMax) smallHeap) :=
    run_eq_after _ (by decide +kernel)
  have hceiling : ¬ PartlyGranted (align8 heapMax) smallHeap := fun h => by
    have := h.2.2.1
    rw [show smallHeap.brk = heapStart + initialPages * pageSize by decide +kernel] at this
    exact absurd this (by decide)
  exact ⟨_, hrun, (kmalloc_failure_untouched_iff (FrameReach.init smallImage smallMap fun _ => 0#32)
    smallPaging_enabled kernelReach_small (n := heapMax) (by decide) le_rfl).2.2 hceiling _ hrun⟩

/-- On the small machine three frames are left after `heap_init`. A call for 64 KiB needs seventeen,
takes the three and fails: the frames stay in use and their pages stay mapped. -/
theorem kmalloc_failure_touches : ∃ t, KernelReach smallPaging ⟨smallHeap, ∅⟩ ∧
    run (heapAct kernelBacking) (kmalloc 65536) smallHeap = some (0, t) ∧
    ¬ Untouched smallHeap t ∧ smallHeap.env.pmm.usedFrames = 21 ∧ t.env.pmm.usedFrames = 24 ∧
    t.brk = smallHeap.brk ∧ smallHeap.env.pagingTranslate smallHeap.brk = pageUnmapped ∧
    t.env.pagingTranslate smallHeap.brk = 0x15000 := by
  have h21 : smallHeap.env.pmm.usedFrames = 21 := by decide +kernel
  have h24 : (after (heapAct kernelBacking) (kmalloc 65536) smallHeap).env.pmm.usedFrames = 24 := by
    decide +kernel
  refine ⟨_, kernelReach_small, run_eq_after _ (by decide +kernel), fun hun => ?_, h21, h24,
    by decide +kernel, by decide +kernel, by decide +kernel⟩
  have := hun.usedFrames
  omega

end JarvisOS
