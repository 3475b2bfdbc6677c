import JarvisOS.Physical.Paging
import JarvisOS.Physical.WholeFrames
import Mathlib.Data.List.Infix

/-!
# Frames reserved at boot

`pmm_free_frame` clears the bit of any frame: nothing records which used frames are reservations of
`pmm_init` and which are allocations. The shell's `free` command rejects the address `0` only, so
the reservations hold exactly as long as no command frees one (`reserved_kept_iff`). `free 1`
already frees frame 0, and `pmm_alloc_frame` then returns `0`, its sign for an exhausted memory,
while frames are free (`reserved_lost`).
-/

namespace JarvisOS

open Foundations

/-- What `print_int` prints for a number below `2^31`. -/
def Output.int (n : ℕ) : Output := .str (toString n)

namespace Pmm

/-! ## The shell's commands on frames -/

/-- `cmd_alloc`: the address of the frame, or `0`. -/
def cmdAlloc (p : Pmm) : ℕ × List Output × Pmm :=
  let addr := p.pmmAllocFrame.1
  let p := p.pmmAllocFrame.2
  if addr = 0 then (0, [.str "out of memory!\n"], p)
  else (addr, [.str "allocated frame at ", .hex addr, .str "   (free now: ", .int p.pmmFreeFrames,
    .str ")\n"], p)

/-- `cmd_free`, for the address given as its argument. -/
def cmdFree (addr : ℕ) (p : Pmm) : List Output × Pmm :=
  if addr = 0 then ([.str "usage: free 0x200000\n"], p)
  else
    let p := p.pmmFreeFrame addr
    ([.str "freed frame at ", .hex addr, .str "   (free now: ", .int p.pmmFreeFrames,
      .str ")\n"], p)

@[simp] theorem cmdAlloc_addr (p : Pmm) : p.cmdAlloc.1 = p.pmmAllocFrame.1 := by
  simp only [cmdAlloc]
  split_ifs with h
  · exact h.symm
  · rfl

@[simp] theorem cmdAlloc_pmm (p : Pmm) : p.cmdAlloc.2.2 = p.pmmAllocFrame.2 := by
  simp only [cmdAlloc]
  split_ifs <;> rfl

theorem cmdFree_of_ne {addr : ℕ} (h : addr ≠ 0) (p : Pmm) :
    (p.cmdFree addr).2 = p.frameMarkFree (addr / frameSize) := by
  rw [cmdFree, if_neg h]
  rfl

theorem pmmAllocFrame_shape (p : Pmm) : SameShape p p.pmmAllocFrame.2 := by
  unfold pmmAllocFrame
  split
  · exact .refl p
  · split_ifs
    · exact .refl p
    · exact p.frameMarkUsed_shape _

end Pmm

/-- The requests of the allocator's clients: frames, and the shell's `free` with any address. -/
inductive FrameCommand
  | alloc
  | free (addr : ℕ)

namespace FrameCommand

/-- The allocator after a request. -/
def run (p : Pmm) : FrameCommand → Pmm
  | alloc => p.cmdAlloc.2.2
  | free addr => (p.cmdFree addr).2

/-- The request frees no frame that `p₀` has in use. -/
def Spares (p₀ : Pmm) : FrameCommand → Prop
  | alloc => True
  | free addr =>
    addr = 0 ∨ p₀.totalFrames ≤ addr / frameSize ∨ p₀.frameTest (addr / frameSize) = false

theorem run_shape (p : Pmm) (c : FrameCommand) : Pmm.SameShape p (c.run p) := by
  cases c with
  | alloc =>
    rw [run, Pmm.cmdAlloc_pmm]
    exact p.pmmAllocFrame_shape
  | free addr =>
    rw [run]
    by_cases h : addr = 0
    · rw [Pmm.cmdFree, if_pos h]
      exact .refl p
    · rw [Pmm.cmdFree_of_ne h]
      exact p.frameMarkFree_shape _

theorem foldl_run_shape (l : List FrameCommand) (p : Pmm) : Pmm.SameShape p (l.foldl run p) :=
  List.foldlRecOn l run (.refl p) fun q hq c _ => hq.trans (run_shape q c)

end FrameCommand

/-! ## The reservations -/

/-- What `p₀` has in use is still in use, and `pmm_alloc_frame` fails only when every frame is. -/
def ReservedKept (p₀ p : Pmm) : Prop :=
  (∀ f < p₀.totalFrames, p₀.frameTest f = true → p.frameTest f = true) ∧
    (p.pmmAllocFrame.1 = 0 → ∀ f < p.totalFrames, p.frameTest f = true)

/-- The invariant of runs that spare the reservations. -/
structure ReservedInv (p₀ p : Pmm) : Prop where
  sound : p.Sound
  shape : Pmm.SameShape p₀ p
  kept : ∀ f < p₀.totalFrames, p₀.frameTest f = true → p.frameTest f = true

namespace ReservedInv

variable {p₀ p : Pmm}

theorem reservedKept (h : ReservedInv p₀ p) : ReservedKept p₀ p := by
  refine ⟨h.kept, ?_⟩
  intro hzero
  rcases h.sound.pmmAllocFrame_spec with ⟨-, hall⟩ | ⟨f, hf, -, e⟩
  · exact hall
  · rw [e] at hzero
    exact absurd hzero (by simp only; omega)

theorem frameMarkUsed (h : ReservedInv p₀ p) (f : ℕ) : ReservedInv p₀ (p.frameMarkUsed f) := by
  refine ⟨h.sound.frameMarkUsed f, h.shape.trans (p.frameMarkUsed_shape f), ?_⟩
  intro g hg hused
  rw [Pmm.frameTest_frameMarkUsed, h.kept g hg hused, Bool.true_or]

theorem frameMarkFree (h : ReservedInv p₀ p) (h0 : p₀.frameTest 0 = true ∨ p₀.totalFrames = 0)
    {f : ℕ}
    (hf : p₀.totalFrames ≤ f ∨ p₀.frameTest f = false) : ReservedInv p₀ (p.frameMarkFree f) := by
  by_cases hout : p₀.totalFrames ≤ f
  · rw [Pmm.frameMarkFree_of_le (h.shape.2.1 ▸ hout)]
    exact h
  · have hfree := hf.resolve_left hout
    have hne : f ≠ 0 := by
      rintro rfl
      rcases h0 with h0 | h0
      · simp [h0] at hfree
      · omega
    refine ⟨h.sound.frameMarkFree hne, h.shape.trans (p.frameMarkFree_shape f), ?_⟩
    intro g hg hused
    have hgf : g ≠ f := by
      rintro rfl
      simp [hused] at hfree
    rw [Pmm.frameTest_frameMarkFree, h.kept g hg hused]
    simp [hgf]

/-- **A request that spares the reservations** keeps the invariant. -/
theorem run (h : ReservedInv p₀ p) (h0 : p₀.frameTest 0 = true ∨ p₀.totalFrames = 0)
    {c : FrameCommand} (hc : c.Spares p₀) : ReservedInv p₀ (c.run p) := by
  cases c with
  | alloc =>
    rw [FrameCommand.run, Pmm.cmdAlloc_pmm]
    rcases h.sound.pmmAllocFrame_spec with ⟨e, -⟩ | ⟨f, -, -, e⟩
    · rw [e]
      exact h
    · rw [e]
      exact h.frameMarkUsed f
  | free addr =>
    rw [FrameCommand.run]
    by_cases hz : addr = 0
    · rw [Pmm.cmdFree, if_pos hz]
      exact h
    · rw [Pmm.cmdFree_of_ne hz]
      exact h.frameMarkFree h0 (hc.resolve_left hz)

theorem foldl (h : ReservedInv p₀ p) (h0 : p₀.frameTest 0 = true ∨ p₀.totalFrames = 0)
    {l : List FrameCommand} (hl : ∀ c ∈ l, c.Spares p₀) :
    ReservedInv p₀ (l.foldl FrameCommand.run p) :=
  List.foldlRecOn l FrameCommand.run h fun _ hq c hc => hq.run h0 (hl c hc)

end ReservedInv

/-- A request that does not spare the reservations loses one at once. -/
theorem FrameCommand.spares_of_reservedKept {p₀ p : Pmm} {c : FrameCommand}
    (hshape : Pmm.SameShape p₀ (c.run p)) (h : ReservedKept p₀ (c.run p)) : c.Spares p₀ := by
  cases c with
  | alloc => trivial
  | free addr =>
    by_contra hnot
    simp only [Spares, not_or, not_le, Bool.not_eq_false] at hnot
    obtain ⟨hz, hlt, hused⟩ := hnot
    have hbit := h.1 _ hlt hused
    have htotal : p.totalFrames = p₀.totalFrames := by
      rw [← hshape.2.1, run, Pmm.cmdFree_of_ne hz, (p.frameMarkFree_shape _).2.1]
    rw [run, Pmm.cmdFree_of_ne hz, Pmm.frameTest_frameMarkFree, htotal] at hbit
    simp [hlt] at hbit

/-- **Reserved memory stays reserved exactly when no command frees it.** Over any sequence of
requests after `pmm_init`: in all states on the way every frame that was left used is used and
`pmm_alloc_frame` fails only when every frame is used, if and only if every `free` is for the
address `0`, for an address beyond the last frame, or for an address in a frame that `pmm_init` left
free. -/
theorem reserved_kept_iff (img : KernelImage) (mm : MemMap) (ram : Bitmap) (l : List FrameCommand) :
    (∀ l₁, l₁ <+: l → ReservedKept (Pmm.pmmInit img mm ram)
      (l₁.foldl FrameCommand.run (Pmm.pmmInit img mm ram))) ↔
    ∀ c ∈ l, c.Spares (Pmm.pmmInit img mm ram) := by
  have h0 := Pmm.pmmInit_frame_zero img mm ram
  have hstart : ReservedInv (Pmm.pmmInit img mm ram) (Pmm.pmmInit img mm ram) :=
    ⟨(FrameReach.init img mm ram).sound, .refl _, fun _ _ hused => hused⟩
  constructor
  · intro hkept c hc
    obtain ⟨pre, post, rfl⟩ := List.append_of_mem hc
    have hafter := hkept (pre ++ [c]) ⟨post, by simp⟩
    rw [List.foldl_append, List.foldl_cons, List.foldl_nil] at hafter
    exact FrameCommand.spares_of_reservedKept
      ((FrameCommand.foldl_run_shape pre _).trans (FrameCommand.run_shape _ c)) hafter
  · intro hspares l₁ hl₁
    exact (hstart.foldl h0 fun c hc => hspares c (hl₁.subset hc)).reservedKept

/-- With frame 0 free, `pmm_alloc_frame` finds it first and its address is `0`. -/
theorem Pmm.pmmAllocFrame_of_zero_free {p : Pmm} (hs : p.Sized) (hp : p.Padded)
    (hpos : 0 < p.totalFrames) (hfree : p.frameTest 0 = false) : p.pmmAllocFrame.1 = 0 := by
  rcases Pmm.pmmAllocFrame_cases hs hp with ⟨e, -⟩ | ⟨f, hf, e⟩
  · rw [e]
  · have hle : f ≤ 0 := hf.2 ⟨hpos, hfree⟩
    rw [e, Nat.le_zero.1 hle]

/-- The allocator of a 3 MB machine after `pmm_init`. -/
def threeMegabytes : Pmm :=
  Pmm.pmmInit ⟨0x108000, by decide⟩ ⟨[⟨0x100000#32, 0x200000#32, 1#32⟩], 0x300000#32⟩ fun _ => 0#32

/-- On a 3 MB machine `free 1` frees frame 0. The next request for a frame returns `0`, although
frame 512, in the middle of the usable memory, is free. -/
theorem reserved_lost : threeMegabytes.frameTest 0 = true ∧
    ((FrameCommand.free 1).run threeMegabytes).frameTest 0 = false ∧
    ((FrameCommand.free 1).run threeMegabytes).pmmAllocFrame.1 = 0 ∧
    ((FrameCommand.free 1).run threeMegabytes).frameTest 512 = false ∧
    ¬ ReservedKept threeMegabytes ((FrameCommand.free 1).run threeMegabytes) := by
  have htotal : threeMegabytes.totalFrames = 768 := by
    rw [threeMegabytes, Pmm.pmmInit_totalFrames]
    decide
  have hused : threeMegabytes.frameTest 0 = true :=
    Pmm.pmmInit_reserved _ _ _ (Nat.zero_le _) (htotal ▸ by decide)
  have hmid : threeMegabytes.frameTest 512 = false := by
    rw [threeMegabytes, Pmm.pmmInit_free_iff _ _ _ (by decide)]
    exact ⟨by decide, _, List.mem_cons_self, by decide, by decide, by decide⟩
  have hrun : (FrameCommand.free 1).run threeMegabytes = threeMegabytes.frameMarkFree 0 :=
    Pmm.cmdFree_of_ne (by decide) threeMegabytes
  have hshape := threeMegabytes.frameMarkFree_shape 0
  have hsized : threeMegabytes.Sized := Pmm.pmmInit_sized _ _ _
  have hpadded : threeMegabytes.Padded := (Pmm.pmmInit_shape_padded _ _ _).2
  have hfree : (threeMegabytes.frameMarkFree 0).frameTest 0 = false := by
    rw [Pmm.frameTest_frameMarkFree, htotal]
    simp
  have hpos : 0 < (threeMegabytes.frameMarkFree 0).totalFrames := by
    rw [hshape.2.1, htotal]
    decide
  rw [hrun]
  refine ⟨hused, hfree, ?_, ?_, ?_⟩
  · exact Pmm.pmmAllocFrame_of_zero_free (hsized.of_shape hshape) (hpadded.frameMarkFree 0) hpos
      hfree
  · rw [Pmm.frameTest_frameMarkFree, hmid]
    rfl
  · rintro ⟨hkept, -⟩
    have hbit := hkept 0 (by rw [htotal]; decide) hused
    rw [hfree] at hbit
    exact Bool.false_ne_true hbit

end JarvisOS
