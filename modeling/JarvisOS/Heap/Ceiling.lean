import JarvisOS.Heap.Invariant

/-!
# The heap's window

`grow_mapping` tests `brk + bytes` against the end of the window in 32-bit arithmetic. For requests
near `2^30` bytes and above the sum wraps around the address space and the test passes, so that
pages past the window are mapped for as long as the backing grants them.
`kmalloc_in_window_iff` says exactly when a call stays in the window.
-/

namespace JarvisOS

open Foundations HeapOp Prog

variable {σ : Type} {B : Backing σ} {s t : HeapState σ} {l : List Seg}

/-- Every page mapped lies in the window. -/
abbrev MapsInWindow : HeapOp → ℕ → Prop := Confined (fun _ => True) InHeapWindow

/-- An allocation does not lower the break. -/
theorem Allocated.brk_le {size p : ℕ} {l' : List Seg} (h : Tiled s l)
    (ha : Allocated B size s l p t l') : s.brk ≤ t.brk := by
  cases ha with
  | found ht => rw [ht.state]; exact le_rfl
  | grown _ hu _ ht =>
    rw [ht.state, HeapState.setMem_brk, hu.state]
    exact Nat.le_add_right _ _
  | ceiling => exact le_rfl
  | refused => exact (mapPages_spec (B := B) _ s.brk s).1.2.1.ge

/-- A growth that leaves the window is for a request no block can fit. -/
theorem not_fits_of_leaves (h : Tiled s l) {size : ℕ} (hw : ¬ GrowthInWindow B size s) :
    ∀ x ∈ l, ¬ x.Fits size := by
  intro x hx hfit
  have hsize := h.size_lt hx
  have hceil := h.ceiling
  have hX : heapMax = 4194304 := rfl
  have hS : heapStart = 3221225472 := rfl
  obtain ⟨-, -, -, hpages⟩ := growthPages_spec (show size ≤ 2 ^ 31 by have := hfit.2; omega)
  have := hfit.2
  exact hw (Or.inl (by omega))

/-- When nothing fits, `kmalloc` extends the heap. -/
theorem Performs.extendHeap_of_kmalloc (h : Tiled s l) {n : ℕ} (h1 : 1 ≤ n)
    {S : HeapOp → ℕ → Prop} (hno : ∀ x ∈ l, ¬ x.Fits (align8 n))
    (hp : Performs (heapAct B) S (kmalloc n) s) :
    Performs (heapAct B) S (extendHeap (align8 n)) s := by
  obtain ⟨x, l', rfl⟩ := List.exists_cons_of_ne_nil h.ne_nil
  have hsearch := runs_searchLoop_none (B := B) loadsIn_inWindow h.length_lt h.headers
    (h.spans le_rfl h.brk_lt) hno
  rw [linkTo_cons, ← h.head] at hsearch
  rw [kmalloc, perform_bind, performs_act] at hp
  simp only [heapAct, h.ready, if_neg Nat.one_ne_zero, if_neg (show ¬ n = 0 by omega)] at hp
  rw [attemptLoop, perform_bind, performs_act] at hp
  exact (hp.2.2.of_bind_run hsearch.1).of_bind

/-- Extending the heap begins with the growth. -/
theorem Performs.growMapping_of_extendHeap {S : HeapOp → ℕ → Prop} {size : ℕ}
    (hp : Performs (heapAct B) S (extendHeap size) s) :
    Performs (heapAct B) S (growMapping (wantBytes size)) s := by
  rw [extendHeap, perform_bind, performs_act] at hp
  exact hp.2.of_bind

/-- **A growth that wraps maps the page after the window**, if the backing lasts. -/
theorem not_performs_of_leaves (h : Tiled s l) {n : ℕ} (h1 : 1 ≤ n) (h2 : n < 2 ^ 31)
    (hw : ¬ GrowthInWindow B (align8 n) s) :
    ¬ Performs (heapAct B) MapsInWindow (kmalloc n) s := by
  intro hp
  have hgrow := Performs.growMapping_of_extendHeap
    (Performs.extendHeap_of_kmalloc h h1 (not_fits_of_leaves h hw) hp)
  obtain ⟨hpages, -, -, hle⟩ := growthPages_spec (payloadSize_align8 h1 h2).2.2
  have hsize := (payloadSize_align8 h1 h2).2.2
  obtain ⟨k, hk⟩ := h.page
  have hceil := h.ceiling
  obtain ⟨hwrap, hlong⟩ := not_or.1 hw
  rw [← mapPages_fst] at hlong
  set pages := growthPages (align8 n)
  have hdiv : pages * pageSize / pageSize = pages := Nat.mul_div_cancel _ (by decide)
  simp only [growMapping, hpages, hdiv] at hgrow
  rw [perform_bind, performs_act] at hgrow
  have hpass : ¬ u32 (s.brk + pages * pageSize) > u32 (heapStart + heapMax) := by
    simp only [u32, heapStart, heapMax, pageSize] at *
    omega
  rw [show (heapAct B getBrk s).1 = s.brk from rfl, if_neg hpass] at hgrow
  have hv : u32 (s.brk + 0) = s.brk := u32_of_lt h.brk_lt
  have hall := (runs_growLoop hv).1 ⟨run_growLoop hv, hgrow.2.of_bind⟩
  have hlast := hall.2.2 ((heapStart + heapMax - s.brk) / pageSize) (by
    simp only [heapStart, heapMax, pageSize] at *
    omega)
  simp only [InHeapWindow, u32, heapStart, heapMax, pageSize] at *
  omega

/-- **`kmalloc` stays in the window exactly when its growth does**: it installs no mapping outside
`[heapStart, heapStart + heapMax)` and returns with a break that has not decreased and is below the
ceiling, if and only if the end of the growth does not wrap around or the backing gives out before
the ceiling. -/
theorem kmalloc_in_window_iff {p : HeapSystem σ} (h : HeapReach B (Windowed B) p) {n : ℕ}
    (h1 : 1 ≤ n) (h2 : n < 2 ^ 31) :
    (Performs (heapAct B) MapsInWindow (kmalloc n) p.heap ∧
      ∃ ptr t, run (heapAct B) (kmalloc n) p.heap = some (ptr, t) ∧
        p.heap.brk ≤ t.brk ∧ t.brk ≤ heapStart + heapMax) ↔
      GrowthInWindow B (align8 n) p.heap := by
  obtain ⟨l, htiled, hacc⟩ := h.inv
  constructor
  · rintro ⟨hp, -⟩
    by_contra hw
    exact not_performs_of_leaves htiled h1 h2 hw hp
  · intro hw
    obtain ⟨ptr, t, l', hrun, ha⟩ := runs_kmalloc htiled h1 h2 hw
    obtain ⟨hn, hle, -⟩ := payloadSize_align8 h1 h2
    have hinv := HeapInv.allocated ⟨htiled, hacc⟩ hn hle ha
    exact ⟨(hrun.mono (Confined.mono fun _ _ => trivial)).2, ptr, t, hrun.1, ha.brk_le htiled,
      hinv.tiled.ceiling⟩

/-- Over a backing that never gives out, a request for 64 KiB of a fresh heap stays in the
window. -/
theorem kmalloc_in_window_bump :
    Performs (heapAct bumpBacking) MapsInWindow (kmalloc 65536) freshHeap := by
  have h : HeapReach bumpBacking (Windowed bumpBacking) ⟨freshHeap, ∅⟩ :=
    .start heapStarted_freshHeap
  obtain ⟨l, htiled, -⟩ := h.inv
  exact ((kmalloc_in_window_iff h (by decide) (by decide)).2
    (growthInWindow_of_le htiled (by decide))).1

theorem bumpBacking_grants (pages virt e : ℕ) : bumpBacking.grants pages virt e = pages := by
  induction pages generalizing virt e with
  | zero => rfl
  | succ pages ih =>
    have hframe : (bumpBacking.pmmAllocFrame e).1 ≠ 0 := Nat.mul_ne_zero (by decide) (by omega)
    have hmapped : ∀ f e, (bumpBacking.pagingMap virt f pageWrite e).1 ≠ 0 := fun _ _ =>
      Nat.one_ne_zero
    simp only [Backing.grants]
    rw [if_neg hframe, if_neg (hmapped _ _), ih]

/-- A request for `2^31 - 1` bytes of a fresh heap, over a backing that never gives out, maps pages
outside the window. -/
theorem kmalloc_leaves_window : HeapReach bumpBacking Requested ⟨freshHeap, ∅⟩ ∧
    ¬ Performs (heapAct bumpBacking) MapsInWindow (kmalloc (2 ^ 31 - 1)) freshHeap := by
  have h : HeapReach bumpBacking Requested ⟨freshHeap, ∅⟩ := .start heapStarted_freshHeap
  obtain ⟨l, htiled, -⟩ := h.windowed.inv
  refine ⟨h, not_performs_of_leaves htiled (by decide) (by decide) ?_⟩
  have hsize : align8 (2 ^ 31 - 1) = 2 ^ 31 := by decide
  obtain ⟨-, -, hpages, -⟩ := growthPages_spec (le_refl (2 ^ 31))
  have htiles := htiled.tiles
  rw [GrowthInWindow, hsize, bumpBacking_grants, not_or]
  simp only [heapStart, heapMax, pageSize] at *
  omega

end JarvisOS
