import JarvisOS.Heap.Ceiling
import JarvisOS.Heap.FirstFit

/-!
# Oversized requests

A request above the size of the window passes through four computations in 32 bits, each of which
can wrap around: rounding up to eight bytes, adding the header, comparing with the least growth,
rounding up to pages. `oversizedBytes` is the growth that comes out. It is the true one for requests
up to `2^32 - 4112` bytes, nothing at all up to `2^32 - 24`, and four pages above; and above
`2^32 - 8` bytes the request itself has become one for no bytes, which any free block can serve.
`kmalloc_refused_iff` says when such a request is refused without a trace.
-/

namespace JarvisOS

open Foundations HeapOp Prog

variable {σ : Type} {B : Backing σ} {s t : HeapState σ} {l : List Seg} {n : ℕ}

/-! ## The growth for an oversized request -/

/-- The bytes by which `kmalloc` tries to grow the heap for `n` bytes, more than the window has. -/
def oversizedBytes (n : ℕ) : ℕ :=
  if n ≤ 2 ^ 32 - 4112 then ((n + 7) / 8 * 8 + headerSize + 4095) / pageSize * pageSize
  else if n ≤ 2 ^ 32 - 24 then 0
  else 4 * pageSize

/-- **The four computations in 32 bits.** -/
theorem roundPages_oversized (h1 : heapMax < n) (h2 : n < 2 ^ 32) :
    roundPages (wantBytes (align8 n)) = oversizedBytes n := by
  have hX : heapMax = 4194304 := rfl
  have hwant : ∀ size, wantBytes size =
      if u32 (size + 16) < 16384 then 16384 else u32 (size + 16) := fun _ => rfl
  unfold oversizedBytes
  by_cases hlow : n ≤ 2 ^ 32 - 4112
  · have hsize : align8 n = (n + 7) / 8 * 8 := align8_eq (by omega)
    have hsum : u32 (align8 n + 16) = align8 n + 16 := u32_of_lt (by omega)
    rw [if_pos hlow, hwant, hsum, if_neg (by omega), roundPages_eq (by omega), hsize]
  · rw [if_neg hlow]
    by_cases hmid : n ≤ 2 ^ 32 - 24
    · have hsize : align8 n = (n + 7) / 8 * 8 := align8_eq (by omega)
      have hsum : u32 (align8 n + 16) = align8 n + 16 := u32_of_lt (by omega)
      have hzero : u32 (align8 n + 16 + 4095) / 4096 = 0 := by
        unfold u32
        omega
      rw [if_pos hmid, hwant, hsum, if_neg (by omega), roundPages_eq_u32, hzero]
    · have hsum : u32 (align8 n + 16) < 16384 := by
        rw [align8_eq_u32]
        unfold u32
        omega
      rw [if_neg hmid, hwant, if_pos hsum]
      decide

theorem oversizedBytes_dvd (n : ℕ) : oversizedBytes n / pageSize * pageSize = oversizedBytes n := by
  unfold oversizedBytes
  simp only [pageSize]
  split_ifs <;> omega

/-- Up to `2^32 - 8` bytes no block is large enough. -/
theorem not_fits_of_oversized (h : Tiled s l) (h1 : heapMax < n) (h2 : n ≤ 2 ^ 32 - 8) :
    ∀ x ∈ l, ¬ x.Fits (align8 n) := by
  intro x hx hfit
  have hsize := h.size_lt hx
  have hle := hfit.2
  rw [align8_eq_u32] at hle
  simp only [u32, headerSize, heapMax] at *
  omega

/-- Above that the request is one for no bytes. -/
theorem align8_oversized (h1 : 2 ^ 32 - 8 < n) (h2 : n < 2 ^ 32) : align8 n = 0 := by
  rw [align8_eq_u32]
  simp only [u32]
  omega

/-! ## Refusals -/

/-- No header is written and no page of the heap is mapped anew. -/
def LeavesHeap (brk : ℕ) : HeapOp → ℕ → Prop
  | store _ _, _ => False
  | pagingMap v _ _, r => r ≠ 0 → v < heapStart ∨ brk ≤ v
  | _, _ => True

/-- The call returns `0` without writing a header, and neither the heap's variables nor its bytes
have changed. -/
def RefusedCleanly (B : Backing σ) (n : ℕ) (s : HeapState σ) : Prop :=
  Performs (heapAct B) (LeavesHeap s.brk) (kmalloc n) s ∧
    ∃ t, run (heapAct B) (kmalloc n) s = some (0, t) ∧ t.brk = s.brk ∧ t.head = s.head ∧
      t.ready = s.ready ∧ ∀ y, heapStart ≤ y → y < s.brk → t.mem y = s.mem y

/-- `bytes` more bytes are refused: at the ceiling, or because the backing gives out before all
pages are mapped, and before the pages come round to the heap's own. -/
def GrowthRefused (B : Backing σ) (bytes : ℕ) (s : HeapState σ) : Prop :=
  (heapStart + heapMax < s.brk + bytes ∧ s.brk + bytes < 2 ^ 32) ∨
    (B.grants (bytes / pageSize) s.brk s.env < bytes / pageSize ∧
      s.brk + B.grants (bytes / pageSize) s.brk s.env * pageSize ≤ 2 ^ 32 + heapStart)

theorem loadsIn_leavesHeap (lo hi brk : ℕ) : LoadsIn lo hi (LeavesHeap brk) :=
  fun _ _ _ _ => trivial

/-- What `grow_mapping` does without touching the heap. -/
theorem runs_growMapping_leavesHeap (h : Tiled s l) {bytes pages r : ℕ}
    (hp : roundPages bytes = pages * pageSize) :
    Runs (heapAct B) (LeavesHeap s.brk) (growMapping bytes) s r t ↔
      Runs (heapAct B) (Confined (fun _ => False) fun v => v < heapStart ∨ s.brk ≤ v)
        (growMapping bytes) s r t := by
  constructor
  · intro hrun
    have hmono : Runs (heapAct B) (Confined (fun _ => True) fun v => v < heapStart ∨ s.brk ≤ v)
        (growMapping bytes) s r t := hrun.mono (by intro o r ho; cases o <;> trivial)
    rw [runs_growMapping hp h.brk_lt] at hmono ⊢
    exact hmono
  · intro hrun
    exact hrun.mono (by intro o r ho; cases o <;> trivial)

/-- When nothing fits, a refused growth refuses the request. -/
theorem runs_kmalloc_of_refused {S : HeapOp → ℕ → Prop} (hS : LoadsIn heapStart s.brk S)
    (hready : ∀ r, S getReady r) (hhead : ∀ r, S getHead r) (hbrk : ∀ r, S getBrk r) (h : Tiled s l)
    (h1 : 1 ≤ n) (hno : ∀ x ∈ l, ¬ x.Fits (align8 n))
    (hgrow : Runs (heapAct B) S (growMapping (wantBytes (align8 n))) s 0 t) :
    Runs (heapAct B) S (kmalloc n) s 0 t := by
  obtain ⟨x, l', rfl⟩ := List.exists_cons_of_ne_nil h.ne_nil
  have hsearch := runs_searchLoop_none (B := B) hS h.length_lt h.headers
    (h.spans le_rfl h.brk_lt) hno
  rw [linkTo_cons, ← h.head] at hsearch
  have hextend : Runs (heapAct B) S (extendHeap (align8 n)) s 0 t := by
    rw [extendHeap, perform_bind, runs_act]
    exact ⟨hbrk _, hgrow.bind runs_ret⟩
  rw [kmalloc, perform_bind, runs_act]
  simp only [heapAct, h.ready, if_neg Nat.one_ne_zero, if_neg (show ¬ n = 0 by omega)]
  rw [attemptLoop, perform_bind, runs_act]
  exact ⟨hready _, hhead _, hsearch.bind (hextend.bind runs_ret)⟩

/-- A growth that is granted writes a header. -/
theorem not_performs_of_granted {size r brk : ℕ} {t : HeapState σ} (hr : r ≠ 0)
    (hgrow : run (heapAct B) (growMapping (wantBytes size)) s = some (r, t)) :
    ¬ Performs (heapAct B) (LeavesHeap brk) (extendHeap size) s := by
  intro hp
  rw [extendHeap, perform_bind, performs_act] at hp
  have hstore := hp.2.of_bind_run hgrow
  rw [if_neg hr, appendBlock, setMagic, perform_bind, performs_act] at hstore
  exact hstore.1

/-- Pages that do not come round to the heap's own lie outside it. -/
theorem page_outside {i : ℕ} (hi : s.brk + (i + 1) * pageSize ≤ 2 ^ 32 + heapStart) :
    u32 (s.brk + i * pageSize) + pageSize ≤ heapStart ∨ s.brk ≤ u32 (s.brk + i * pageSize) := by
  by_cases hwrap : s.brk + i * pageSize < 2 ^ 32
  · exact Or.inr (by rw [u32_of_lt hwrap]; exact Nat.le_add_right _ _)
  · refine Or.inl ?_
    simp only [u32, heapStart, pageSize] at *
    omega

/-- The heap has a first page. -/
theorem Tiled.start_lt_brk (h : Tiled s l) : heapStart < s.brk := by
  obtain ⟨x, l', rfl⟩ := List.exists_cons_of_ne_nil h.ne_nil
  have htiles := h.tiles
  rw [Seg.span_cons, headerSize_eq] at htiles
  omega

/-- As long as no page of the heap is mapped anew, the pages have not come round to it. -/
theorem round_le_of_pages (h : Tiled s l) {pages : ℕ}
    (hpages : ∀ i < pages, u32 (s.brk + i * pageSize) < heapStart ∨
      s.brk ≤ u32 (s.brk + i * pageSize)) : s.brk + pages * pageSize ≤ 2 ^ 32 + heapStart := by
  by_contra hround
  obtain ⟨k, hk⟩ := h.page
  have hstart := h.start_lt_brk
  have hceiling := h.ceiling
  have hlast := hpages ((2 ^ 32 + heapStart - s.brk) / pageSize) (by
    simp only [heapStart, heapMax, pageSize] at *
    omega)
  clear hpages
  simp only [u32, heapStart, heapMax, pageSize] at *
  omega

section Refusal

variable {pages : ℕ}

/-- **At the ceiling** the request is refused cleanly. -/
theorem refusedCleanly_of_ceiling (h : Tiled s l) (h1 : 1 ≤ n)
    (hno : ∀ x ∈ l, ¬ x.Fits (align8 n)) (hp : roundPages (wantBytes (align8 n)) = pages * pageSize)
    (hceil : u32 (s.brk + pages * pageSize) > u32 (heapStart + heapMax)) : RefusedCleanly B n
      s := by
  have hgrow : Runs (heapAct B) (LeavesHeap s.brk) (growMapping (wantBytes (align8 n))) s 0 s := by
    rw [runs_growMapping_leavesHeap h hp, runs_growMapping hp h.brk_lt, if_pos hceil]
    exact ⟨rfl, rfl⟩
  have hrun := runs_kmalloc_of_refused (loadsIn_leavesHeap _ _ _) (fun _ => trivial)
    (fun _ => trivial) (fun _ => trivial) h h1 hno hgrow
  exact ⟨hrun.2, s, hrun.1, rfl, rfl, rfl, fun _ _ _ => rfl⟩

/-- **When all pages are granted** the heap grows. -/
theorem not_refusedCleanly_of_granted (h : Tiled s l) (h1 : 1 ≤ n)
    (hno : ∀ x ∈ l, ¬ x.Fits (align8 n)) (hp : roundPages (wantBytes (align8 n)) = pages * pageSize)
    (hceil : ¬ u32 (s.brk + pages * pageSize) > u32 (heapStart + heapMax))
    (hall : (mapPages B pages s.brk s).1 = pages) : ¬ RefusedCleanly B n s := by
  rintro ⟨hperf, -⟩
  have hrun : Runs (heapAct B) (Confined (fun _ => True) fun _ => True)
      (growMapping (wantBytes (align8 n))) s 1
      { (mapPages B pages s.brk s).2 with brk := u32 (s.brk + pages * pageSize) } := by
    rw [runs_growMapping hp h.brk_lt, if_neg hceil, if_pos hall]
    exact ⟨fun _ _ => trivial, rfl, rfl⟩
  exact not_performs_of_granted Nat.one_ne_zero hrun.1
    (Performs.extendHeap_of_kmalloc h h1 hno hperf)

/-- **When the backing gives out** the request is refused cleanly unless the pages have come round
to the heap's own. -/
theorem refusedCleanly_iff_of_short (h : Tiled s l) (h1 : 1 ≤ n)
    (hno : ∀ x ∈ l, ¬ x.Fits (align8 n)) (hp : roundPages (wantBytes (align8 n)) = pages * pageSize)
    (hceil : ¬ u32 (s.brk + pages * pageSize) > u32 (heapStart + heapMax))
    (hall : (mapPages B pages s.brk s).1 ≠ pages) : RefusedCleanly B n s ↔
      s.brk + (mapPages B pages s.brk s).1 * pageSize ≤ 2 ^ 32 + heapStart := by
  have hrun : Runs (heapAct B) (Confined (fun _ => True) fun _ => True)
      (growMapping (wantBytes (align8 n))) s 0 (mapPages B pages s.brk s).2 := by
    rw [runs_growMapping hp h.brk_lt, if_neg hceil, if_neg hall]
    exact ⟨fun _ _ => trivial, rfl, rfl⟩
  have hiff := runs_growMapping_leavesHeap (B := B) (r := 0)
    (t := (mapPages B pages s.brk s).2) h hp
  rw [runs_growMapping hp h.brk_lt, if_neg hceil, if_neg hall] at hiff
  constructor
  · rintro ⟨hperf, -⟩
    have hgrow := Performs.growMapping_of_extendHeap (Performs.extendHeap_of_kmalloc h h1 hno hperf)
    exact round_le_of_pages h (hiff.1 ⟨hrun.1, hgrow⟩).1
  · intro hround
    have hpages : ∀ i < (mapPages B pages s.brk s).1,
        u32 (s.brk + i * pageSize) + pageSize ≤ heapStart ∨ s.brk ≤ u32 (s.brk + i * pageSize) := by
      intro i hi
      exact page_outside ((Nat.add_le_add_left (Nat.mul_le_mul_right _ hi) _).trans hround)
    have hgrow := hiff.2 ⟨fun i hi => (hpages i hi).imp_left fun hlow =>
      (Nat.lt_add_of_pos_right (by decide)).trans_le hlow, rfl, rfl⟩
    have hrefused := runs_kmalloc_of_refused (loadsIn_leavesHeap _ _ _) (fun _ => trivial)
      (fun _ => trivial) (fun _ => trivial) h h1 hno hgrow
    obtain ⟨hvars, hmem⟩ := mapPages_spec (B := B) pages s.brk s
    refine ⟨hrefused.2, _, hrefused.1, hvars.2.1, hvars.1, hvars.2.2.1, ?_⟩
    intro y hlo hhi
    apply hmem y _ h.brk_lt
    intro i hi
    obtain ⟨k, hk⟩ := h.page
    clear hceil hpages
    simp only [u32, heapStart, pageSize] at *
    omega

end Refusal

/-- **Where nothing fits**, the request is refused cleanly exactly when the growth is. -/
theorem refusedCleanly_iff_of_none (h : Tiled s l) (h1 : 1 ≤ n)
    (hno : ∀ x ∈ l, ¬ x.Fits (align8 n)) {g : ℕ} (hg : roundPages (wantBytes (align8 n)) = g)
    (hdvd : g / pageSize * pageSize = g) (hlt : g < 2 ^ 32) :
    RefusedCleanly B n s ↔ GrowthRefused B g s := by
  have hp : roundPages (wantBytes (align8 n)) = g / pageSize * pageSize := hg.trans hdvd.symm
  have hwl : u32 (heapStart + heapMax) = heapStart + heapMax := u32_of_lt window_lt
  have hceiling := h.ceiling
  rw [GrowthRefused, ← mapPages_fst (B := B) (g / pageSize) s.brk s]
  by_cases hceil : u32 (s.brk + g / pageSize * pageSize) > u32 (heapStart + heapMax)
  · refine iff_of_true (refusedCleanly_of_ceiling h h1 hno hp hceil) (Or.inl ?_)
    rw [hdvd, hwl] at hceil
    simp only [u32, heapStart, heapMax] at *
    omega
  · have hleft : ¬ (heapStart + heapMax < s.brk + g ∧ s.brk + g < 2 ^ 32) := by
      rintro ⟨h2, h3⟩
      rw [hdvd, hwl, u32_of_lt h3] at hceil
      exact hceil h2
    rw [or_iff_right hleft]
    by_cases hall : (mapPages B (g / pageSize) s.brk s).1 = g / pageSize
    · refine iff_of_false (not_refusedCleanly_of_granted h h1 hno hp hceil hall) fun hshort => ?_
      exact absurd hall hshort.1.ne
    · have hless := Nat.lt_of_le_of_ne (mapPages_le (B := B) (g / pageSize) s.brk s) hall
      rw [refusedCleanly_iff_of_short h h1 hno hp hceil hall, and_iff_right hless]

/-! ## Requests for no bytes -/

/-- A block for no bytes is a free block. -/
theorem Tiled.not_free_iff (h : Tiled s l) :
    (∀ bs, BlockList s.mem s.head s.brk bs → ∀ b ∈ bs, ¬ FreeAt s.mem b) ↔
      ∀ x ∈ l, ¬ x.Fits 0 := by
  have hlist := h.blockList
  constructor
  · intro hfree x hx hfit
    obtain ⟨pre, post, rfl⟩ := List.append_of_mem hx
    obtain ⟨-, hflag, hmem⟩ := h.headers.block
    exact hfree _ hlist _ hmem (hflag.2 hfit.1)
  · intro hno bs hbs b hb hfree
    rw [hbs.visits.unique hlist.visits] at hb
    obtain ⟨x, hx, hfit⟩ := h.headers.exists_fits hb ⟨hfree, Nat.zero_le _⟩
    exact hno x hx hfit

/-- A request for no bytes is served by a free block. -/
theorem not_refusedCleanly_of_free (h : Tiled s l) (h1 : 1 ≤ n) (hsize : align8 n = 0)
    (hfree : ¬ ∀ x ∈ l, ¬ x.Fits 0) : ¬ RefusedCleanly B n s := by
  rcases Seg.firstFit 0 l with hno | ⟨pre, x, post, rfl, hpre, hx⟩
  · exact absurd hno hfree
  · rintro ⟨-, t, hrun, -⟩
    obtain ⟨p, u, hattempt, htaken⟩ := runs_attemptLoop_found (B := B) 1 h hpre hx
    have hserved : run (heapAct B) (kmalloc n) s = some (p, u) := by
      rw [kmalloc, perform_bind, run_act]
      simp only [heapAct, h.ready, if_neg Nat.one_ne_zero, if_neg (show ¬ n = 0 by omega), hsize]
      exact hattempt.1
    obtain ⟨hp, -⟩ := Prod.mk.inj (Option.some.inj (hserved.symm.trans hrun))
    have hpayload := htaken.payload
    rw [headerSize_eq] at hpayload
    omega

/-- The calls that keep the heap sound: those whose growth stays in the window, and requests of any
size that are refused cleanly. -/
def Served (B : Backing σ) (p : HeapSystem σ) (c : HeapEvent σ) : Prop :=
  Windowed B p c ∨ ∃ n, c = .kmalloc n ∧ RefusedCleanly B n p.heap

/-- A request that is refused cleanly keeps the invariant. -/
theorem RefusedCleanly.inv (hn : RefusedCleanly B n s) {live : Set (ℕ × ℕ)}
    (h : HeapInv ⟨s, live⟩ l) {p : ℕ} (hrun : run (heapAct B) (kmalloc n) s = some (p, t)) :
    HeapInv ⟨t, if p = 0 then live else insert (p, n) live⟩ l := by
  obtain ⟨-, t', hrun', hbrk, hhead, hready, hmem⟩ := hn
  obtain ⟨rfl, rfl⟩ := Prod.mk.inj (Option.some.inj (hrun'.symm.trans hrun))
  refine ⟨h.tiled.congr hready hhead hbrk ?_, by rw [if_pos rfl]; exact h.accounts⟩
  intro b hb y hlo hhi
  obtain ⟨h1, h2⟩ := h.tiled.starts_lt hb
  exact hmem y (h1.trans hlo) (hhi.trans_le h2)

theorem HeapReach.inv_of_served {p : HeapSystem σ} (h : HeapReach B (Served B) p) :
    ∃ l, HeapInv p l := by
  refine Reach.invariant (I := fun p => ∃ l, HeapInv p l) h ?_ ?_
  · intro p h0
    exact ⟨_, HeapInv.started h0⟩
  · rintro p q - ⟨l, hl⟩ ⟨c, hw | ⟨n, rfl, hn⟩, hs⟩
    · exact hs.inv hl hw
    · cases hs with
      | kmalloc hrun => exact ⟨l, hn.inv hl hrun⟩

/-- **Oversized requests.** In every reachable state and for every 32-bit request above the size of
the window: the call returns `0` without writing a header and leaves the heap as it was, if and only
if the growth that it comes to is refused and, above `2^32 - 8` bytes, no block is free. -/
theorem kmalloc_refused_iff {p : HeapSystem σ} (h : HeapReach B (Served B) p) {n : ℕ}
    (h1 : heapMax < n) (h2 : n < 2 ^ 32) : RefusedCleanly B n p.heap ↔
      GrowthRefused B (oversizedBytes n) p.heap ∧ (2 ^ 32 - 8 < n →
        ∀ bs, BlockList p.heap.mem p.heap.head p.heap.brk bs →
          ∀ b ∈ bs, ¬ FreeAt p.heap.mem b) := by
  obtain ⟨l, htiled, -⟩ := h.inv_of_served
  have hpos : 1 ≤ n := Nat.one_le_of_lt h1
  have hnone : (∀ x ∈ l, ¬ x.Fits (align8 n)) →
      (RefusedCleanly B n p.heap ↔ GrowthRefused B (oversizedBytes n) p.heap) := by
    intro hno
    refine refusedCleanly_iff_of_none htiled hpos hno (roundPages_oversized h1 h2)
      (oversizedBytes_dvd n) ?_
    rw [← roundPages_oversized h1 h2, roundPages_eq_u32]
    exact (Nat.div_mul_le_self _ _).trans_lt (u32_lt _)
  by_cases hlow : n ≤ 2 ^ 32 - 8
  · rw [hnone (not_fits_of_oversized htiled h1 hlow)]
    exact (and_iff_left fun hhigh => absurd hlow (not_le.2 hhigh)).symm
  · have hhigh := not_le.1 hlow
    have hsize := align8_oversized hhigh h2
    rw [htiled.not_free_iff]
    by_cases hno : ∀ x ∈ l, ¬ x.Fits 0
    · rw [hnone (by rwa [hsize])]
      exact (and_iff_left fun _ => hno).symm
    · refine iff_of_false (not_refusedCleanly_of_free htiled hpos hsize hno) ?_
      rintro ⟨-, hfree⟩
      exact hno (hfree hhigh)

/-- A request for 64 MiB of a fresh heap is refused cleanly. -/
theorem kmalloc_refused_fresh : RefusedCleanly bumpBacking (2 ^ 26) freshHeap := by
  have h : HeapReach bumpBacking (Served bumpBacking) ⟨freshHeap, ∅⟩ := .start heapStarted_freshHeap
  have htiles := (HeapInv.started heapStarted_freshHeap).tiled.tiles
  rw [span_freshBlock (by decide)] at htiles
  refine (kmalloc_refused_iff h (by decide) (by decide)).2 ⟨Or.inl ⟨?_, ?_⟩, ?_⟩
  · rw [← htiles]
    decide
  · rw [← htiles]
    decide
  · intro hlt
    exact absurd hlt (by decide)

/-- A request for `2^32 - 1` bytes of a fresh heap returns a pointer. -/
theorem kmalloc_oversized_served : HeapReach bumpBacking Requested ⟨freshHeap, ∅⟩ ∧
    ¬ RefusedCleanly bumpBacking (2 ^ 32 - 1) freshHeap := by
  have h : HeapReach bumpBacking Requested ⟨freshHeap, ∅⟩ := .start heapStarted_freshHeap
  refine ⟨h, ?_⟩
  have htiled := (HeapInv.started heapStarted_freshHeap).tiled
  refine not_refusedCleanly_of_free htiled (by decide) (by decide) ?_
  intro hno
  exact hno _ List.mem_cons_self ⟨rfl, Nat.zero_le _⟩

end JarvisOS
