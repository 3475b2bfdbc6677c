import JarvisOS.Heap.Invariant
import JarvisOS.Physical.PageRuns
import JarvisOS.Physical.Reserved

/-!
# The heap over the page tables, and the shell's commands on them

`kernelBacking` puts the page tables and the frame allocator behind the heap. `cmdMap` and
`cmdUnmap` are the shell commands that map a fresh frame at an address and take it back; what they
print is part of their result. `KernelStep` is one step of the kernel after boot: a call of the
heap, a write of an owner inside its own payload, one of these commands, or `alloc`, whose frame is
never given back.
-/

namespace JarvisOS

open Foundations Prog

/-- The frame allocator and the page tables, as the heap calls them. -/
def kernelBacking : Backing Paging where
  pmmAllocFrame e := (e.pmm.pmmAllocFrame.1, { e with pmm := e.pmm.pmmAllocFrame.2 })
  pmmFreeFrame frame e := { e with pmm := e.pmm.pmmFreeFrame frame }
  pagingMap virt phys flags e := e.pagingMap virt phys flags
  physByte e := e.ram

namespace Paging

/-- The page that contains an address. -/
def pageOf (addr : ℕ) : ℕ := addr &&& lnot32 (pageSize - 1)

/-- `cmd_map`, for the address given as its argument. The probe is written and read through the new
mapping. -/
def cmdMap (addr : ℕ) (s : Paging) : List Output × Paging :=
  let virt := pageOf addr
  if virt = 0 then ([.str "usage: map 0xD0000000\n"], s)
  else if s.pagingTranslate virt ≠ pageUnmapped then ([.str "that address is already mapped\n"], s)
  else
    let frame := s.pmm.pmmAllocFrame.1
    let s := { s with pmm := s.pmm.pmmAllocFrame.2 }
    if frame = 0 then ([.str "out of physical memory\n"], s)
    else
      let mapped := (s.pagingMap virt frame pageWrite).1
      let s := (s.pagingMap virt frame pageWrite).2
      if mapped = 0 then
        ([.str "mapping failed (no frame for a page table)\n"],
          { s with pmm := s.pmm.pmmFreeFrame frame })
      else
        let s := { s with ram := s.ram.write32 (s.pagingTranslate virt) 0x1234ABCD }
        ([.str "mapped ", .hex virt, .str " -> ", .hex frame,
          .str "\nwrote 0x1234ABCD, read back ", .hex (s.ram.read32 (s.pagingTranslate virt)),
          .str "\n"], s)

/-- `cmd_unmap`, for the address given as its argument. -/
def cmdUnmap (addr : ℕ) (s : Paging) : List Output × Paging :=
  let virt := pageOf addr
  let phys := s.pagingTranslate virt
  if phys = pageUnmapped then ([.str "not mapped\n"], s)
  else if virt < s.identityEnd then ([.str "refusing to unmap the identity region\n"], s)
  else
    let s := (s.pagingUnmap virt).2
    ([.str "unmapped ", .hex virt, .str " and returned the frame\n"],
      { s with pmm := s.pmm.pmmFreeFrame (pageOf phys) })

theorem pageOf_eq {a : ℕ} (h : a < 2 ^ 32) : pageOf a = a / pageSize * pageSize :=
  and_lnot32 (k := 12) (by decide) h

theorem pageOf_lt {a : ℕ} (h : a < 2 ^ 32) : pageOf a < 2 ^ 32 := by
  rw [pageOf_eq h]
  exact (Nat.div_mul_le_self a pageSize).trans_lt h

theorem dvd_pageOf {a : ℕ} (h : a < 2 ^ 32) : pageSize ∣ pageOf a :=
  pageOf_eq h ▸ Nat.dvd_mul_left _ _

/-- The address of a frame is that of a page. -/
theorem pageOf_frame {f : ℕ} (h : 4096 * f < 2 ^ 32) : pageOf (4096 * f) = 4096 * f := by
  rw [pageOf_eq h, show 4096 * f = f * pageSize from Nat.mul_comm _ _,
    Nat.mul_div_cancel f (by decide)]

/-- What `cmd_unmap` leaves. -/
theorem cmdUnmap_snd (addr : ℕ) (s : Paging) : (s.cmdUnmap addr).2 =
    if s.pagingTranslate (pageOf addr) = pageUnmapped ∨ pageOf addr < s.identityEnd then s
    else
      let t := (s.pagingUnmap (pageOf addr)).2
      { t with pmm := t.pmm.pmmFreeFrame (pageOf (s.pagingTranslate (pageOf addr))) } := by
  unfold cmdUnmap
  simp only
  by_cases h0 : s.pagingTranslate (pageOf addr) = pageUnmapped
  · rw [if_pos h0, if_pos (Or.inl h0)]
  by_cases h1 : pageOf addr < s.identityEnd
  · rw [if_neg h0, if_pos h1, if_pos (Or.inr h1)]
  · rw [if_neg h0, if_neg h1, if_neg (not_or.2 ⟨h0, h1⟩)]

end Paging

/-! ## The kernel after boot -/

/-- The kernel: the heap over the page tables, and the live allocations. -/
abbrev KernelSystem : Type := HeapSystem Paging

/-- `heap_init` has run after `paging_init`, successfully or not. -/
def KernelStarted (boot : Paging) (q : KernelSystem) : Prop :=
  (∃ m, run (heapAct kernelBacking) heapInit (.zeroed m boot) = some ((), q.heap)) ∧ q.live = ∅

/-- The heap after the page tables have changed and something has been printed. -/
def HeapState.onConsole (s : HeapState Paging) (r : List Output × Paging) : HeapState Paging :=
  { s with env := r.2, out := s.out ++ r.1 }

/-- One step of the kernel. -/
inductive KernelStep : KernelSystem → KernelSystem → Prop
  | heap {c : HeapEvent Paging} {p q : KernelSystem} (hc : Requested p c)
      (hb : ∀ e, c ≠ .backing e) (hs : HeapStep kernelBacking c p q) : KernelStep p q
  | alloc (p : KernelSystem) :
      KernelStep p ⟨p.heap.onConsole (p.heap.env.pmm.cmdAlloc.2.1,
        { p.heap.env with pmm := p.heap.env.pmm.cmdAlloc.2.2 }), p.live⟩
  | map (p : KernelSystem) {addr : ℕ} (ha : addr < 2 ^ 32) :
      KernelStep p ⟨p.heap.onConsole (p.heap.env.cmdMap addr), p.live⟩
  | unmap (p : KernelSystem) {addr : ℕ} (ha : addr < 2 ^ 32)
      (hout : addr < heapStart ∨ p.heap.brk ≤ addr) :
      KernelStep p ⟨p.heap.onConsole (p.heap.env.cmdUnmap addr), p.live⟩

/-- The states of the kernel reached after `paging_init` has left the page tables in state
`boot`. -/
def KernelReach (boot : Paging) : KernelSystem → Prop := Reach (KernelStarted boot) KernelStep

end JarvisOS
