import JarvisOS.Heap.Invariant

/-!
# First fit

`kmalloc` takes the lowest block in memory that is free and large enough, and grows the heap once
when there is none. What it hands out is at most 31 bytes larger than asked for, rounded up: either
the rest of the block was split off, or it was too small to be a block of its own (`Granted`). No
other block in use changes (`Allocated.inUse`).
-/

namespace JarvisOS

open Foundations HeapOp Prog

variable {σ : Type} {B : Backing σ} {s t : HeapState σ} {l l' pre post : List Seg} {x : Seg}

/-- The block at `b` is free and has room for `size` bytes. -/
def FitsAt (m : Mem) (size b : ℕ) : Prop := FreeAt m b ∧ size ≤ sizeAt m b

/-- The payload at `p` is handed out for `size` bytes: its block is in use and little larger, and
the only other new block is the rest, a free block right after it. The blocks before the call are
`bs`, those after it `bs'`. -/
structure Granted (size : ℕ) (m : Mem) (bs bs' : List ℕ) (p : ℕ) : Prop where
  payload : headerSize ≤ p
  block : p - headerSize ∈ bs'
  used : ¬ FreeAt m (p - headerSize)
  size_ge : size ≤ sizeAt m (p - headerSize)
  size_le : sizeAt m (p - headerSize) ≤ size + 31
  rest : ∀ c ∈ bs', c ∉ bs → c ≠ p - headerSize →
    c = p + sizeAt m (p - headerSize) ∧ FreeAt m c ∧ minSplit ≤ sizeAt m c

/-! ## Blocks in memory and in the list -/

/-- A segment of the list, in memory. -/
theorem Holds.block {m : Mem} {a : ℕ} (h : Holds m a (pre ++ x :: post) 0) :
    sizeAt m (a + Seg.span headerSize pre) = x.size ∧
      (FreeAt m (a + Seg.span headerSize pre) ↔ x.free = true) ∧
      a + Seg.span headerSize pre ∈ Seg.starts headerSize a (pre ++ x :: post) := by
  obtain ⟨-, hx, -⟩ := Holds.append_iff.1 h
  refine ⟨hx.size, hx.freeAt_iff, ?_⟩
  rw [Seg.starts_append]
  exact List.mem_append_right _ List.mem_cons_self

/-- A block in memory, in the list. -/
theorem Holds.fitsAt_iff {m : Mem} {a size : ℕ} (h : Holds m a (pre ++ x :: post) 0) :
    FitsAt m size (a + Seg.span headerSize pre) ↔ x.Fits size := by
  rw [FitsAt, h.block.1, h.block.2.1]
  rfl

theorem Holds.exists_fits {m : Mem} {a size b : ℕ} (h : Holds m a l 0)
    (hb : b ∈ Seg.starts headerSize a l) (hfit : FitsAt m size b) : ∃ y ∈ l, y.Fits size := by
  obtain ⟨pre, y, post, rfl, rfl, -⟩ := h.header_of_mem hb
  exact ⟨y, by simp, h.fitsAt_iff.1 hfit⟩

/-- A payload in use, in memory. -/
theorem Holds.payload {m : Mem} {a : ℕ} (h : Holds m a l 0) {c : ℕ × ℕ}
    (hc : c ∈ Seg.inUse headerSize a l) : c.1 - headerSize ∈ Seg.starts headerSize a l ∧
      sizeAt m (c.1 - headerSize) = c.2 ∧ ¬ FreeAt m (c.1 - headerSize) := by
  obtain ⟨pre, x, post, rfl, hx, rfl⟩ := Seg.exists_of_mem_inUse headerSize hc
  obtain ⟨hsize, hfree, hmem⟩ := h.block
  simp only [Nat.add_sub_cancel]
  exact ⟨hmem, hsize, by simp [hfree, hx]⟩

/-- **The first segment that fits is the lowest block that fits.** -/
theorem Tiled.isLeast_fitsAt {size : ℕ} (h : Tiled s (pre ++ x :: post))
    (hpre : ∀ y ∈ pre, ¬ y.Fits size) (hx : x.Fits size) :
    IsLeast {b | b ∈ Seg.starts headerSize heapStart (pre ++ x :: post) ∧ FitsAt s.mem size b}
      (heapStart + Seg.span headerSize pre) := by
  refine ⟨⟨h.headers.block.2.2, h.headers.fitsAt_iff.2 hx⟩, ?_⟩
  rintro c ⟨hc, hfit⟩
  rw [Seg.starts_append] at hc
  rcases List.mem_append.1 hc with hc | hc
  · obtain ⟨hholds, -⟩ := Holds.append_iff.1 h.headers
    obtain ⟨pre₁, y, post₁, rfl, rfl, -⟩ := hholds.header_of_mem hc
    have hy := h.headers
    rw [List.append_assoc, List.cons_append] at hy
    exact absurd (hy.fitsAt_iff.1 hfit) (hpre y (by simp))
  · exact (Seg.starts_bounds headerSize hc).1

/-! ## The block that is handed out -/

/-- **A block taken is handed out** as it should be. -/
theorem Taken.granted {size p : ℕ} (ht : Taken size s pre x post p t) {bs : List ℕ}
    (hbs : ∀ c ∈ Seg.starts headerSize heapStart (pre ++ x :: post), c ∈ bs ∨ c = p - headerSize) :
    Granted size t.mem bs
      (Seg.starts headerSize heapStart (pre ++ Seg.carve headerSize minSplit size x ++ post))
        p := by
  have hblock : p - headerSize = heapStart + Seg.span headerSize pre := by
    rw [ht.payload, Nat.add_sub_cancel]
  have hM : minSplit = 16 := rfl
  have hH := headerSize_eq
  have hle := ht.fits.2
  have hrest : ∀ c ∈ Seg.starts headerSize heapStart
      (pre ++ Seg.carve headerSize minSplit size x ++ post), c ∉ bs → c ≠ p - headerSize →
        size + headerSize + minSplit ≤ x.size ∧ c = p + size := by
    intro c hc hnot hne
    rcases Seg.mem_starts_of_carve headerSize hc with hc | ⟨hsplit, rfl⟩
    · rcases hbs c hc with hc | hc
      · exact absurd hc hnot
      · exact absurd hc hne
    · exact ⟨hsplit, by rw [ht.payload]⟩
  have hlist := ht.list
  have hp := ht.payload
  rw [Seg.carve] at hlist hrest ⊢
  split_ifs at hlist hrest ⊢ with hsplit
  · rw [List.append_assoc] at hlist hrest ⊢
    obtain ⟨hsize, hfree, hmem⟩ := hlist.block
    rw [← hblock] at hsize hfree hmem
    have hbound : size ≤ size + 31 := Nat.le_add_right _ _
    refine ⟨by omega, hmem, by simp [hfree], hsize.ge, hsize ▸ hbound, ?_⟩
    intro c hc hnot hne
    obtain ⟨-, rfl⟩ := hrest c hc hnot hne
    have hsecond := hlist
    rw [List.cons_append, List.append_cons] at hsecond
    obtain ⟨hsize', hfree', -⟩ := hsecond.block
    have haddr : heapStart + Seg.span headerSize (pre ++ [⟨size, false⟩]) = p + size := by
      simp only [Seg.span_append, Seg.span_cons, Seg.span_nil]
      omega
    rw [haddr] at hsize' hfree'
    have hroom : minSplit ≤ x.size - size - headerSize := by omega
    exact ⟨by rw [hsize], hfree'.2 rfl, hsize' ▸ hroom⟩
  · rw [List.append_assoc] at hlist hrest ⊢
    obtain ⟨hsize, hfree, hmem⟩ := hlist.block
    rw [← hblock] at hsize hfree hmem
    have hbound : x.size ≤ size + 31 := by omega
    refine ⟨by omega, hmem, by simp [hfree], hsize ▸ hle, hsize ▸ hbound, ?_⟩
    intro c hc hnot hne
    exact absurd (hrest c hc hnot hne).1 hsplit

/-- **No other block in use changes.** -/
theorem Allocated.inUse {size p : ℕ} (ha : Allocated B size s l p t l') {c : ℕ × ℕ}
    (hc : c ∈ Seg.inUse headerSize heapStart l) : c ∈ Seg.inUse headerSize heapStart l' := by
  cases ha with
  | @found pre post x p t ht =>
    obtain ⟨big, -, hmem⟩ := Seg.mem_inUse_carve headerSize (a := heapStart)
      (t := minSplit) pre post
      ht.fits
    exact (hmem c).2 (Or.inr hc)
  | @grown l pre post x p m u t hno hu hl ht =>
    obtain ⟨big, -, hmem⟩ := Seg.mem_inUse_carve headerSize (a := heapStart)
      (t := minSplit) pre post
      ht.fits
    refine (hmem c).2 (Or.inr ?_)
    rw [← hl, Seg.inUse_merge, Seg.inUse_append]
    exact List.mem_append_left _ hc
  | ceiling => exact hc
  | refused => exact hc

/-- A payload in use is not handed out again. -/
theorem Allocated.ne_of_inUse {size p : ℕ} (ha : Allocated B size s l p t l') {c : ℕ × ℕ}
    (hc : c ∈ Seg.inUse headerSize heapStart l) : c.1 ≠ p := by
  have hpos : c.1 ≠ 0 := by
    have := (Seg.inUse_bounds headerSize hc).1
    rw [headerSize_eq] at this
    omega
  cases ha with
  | @found pre post x p t ht =>
    rw [ht.payload]
    exact Seg.not_mem_inUse_of_free headerSize (by decide) ht.fits.1 hc
  | @grown l pre post x p m u t hno hu hl ht =>
    have hin : c ∈ Seg.inUse headerSize heapStart (pre ++ x :: post) := by
      rw [← hl, Seg.inUse_merge, Seg.inUse_append]
      exact List.mem_append_left _ hc
    rw [ht.payload]
    exact Seg.not_mem_inUse_of_free headerSize (by decide) ht.fits.1 hin
  | ceiling => exact hpos
  | refused => exact hpos

/-! ## The growth -/

/-- The bytes by which the heap grows for `size` bytes, in whole pages. -/
def growthBytes (size : ℕ) : ℕ :=
  (max (size + headerSize) (4 * pageSize) + 4095) / pageSize * pageSize

/-- What the call does is one growth of the heap: the break and the state behind the heap are those
that `grow_mapping` leaves, and the call fails exactly when that is refused. -/
def GrowsOnce (B : Backing σ) (size : ℕ) (s : HeapState σ) (p : ℕ) (t : HeapState σ) : Prop :=
  ∃ r u, run (heapAct B) (growMapping (max (size + headerSize) (4 * pageSize))) s = some (r, u) ∧
    t.brk = u.brk ∧ t.env = u.env ∧ (p = 0 ↔ r = 0) ∧
    t.brk = if p = 0 then s.brk else s.brk + growthBytes size

theorem wantBytes_eq {size : ℕ} (h : size ≤ 2 ^ 31) :
    wantBytes size = max (size + headerSize) (4 * pageSize) := by
  simp only [wantBytes, headerSize, pageSize]
  rw [u32_of_lt (by omega)]
  split_ifs <;> omega

theorem growthBytes_eq {size : ℕ} (h : size ≤ 2 ^ 31) :
    growthBytes size = growthPages size * pageSize := by
  obtain ⟨-, e⟩ := growthPages_eq h
  rw [e]
  rfl

/-- **The heap grows at most once.** -/
theorem Allocated.growsOnce {size p : ℕ} (h : Tiled s l) (hsize : size ≤ 2 ^ 31)
    (hlt : s.brk + growthPages size * pageSize < 2 ^ 32) (ha : Allocated B size s l p t l')
    (hno : ∀ y ∈ l, ¬ y.Fits size) : GrowsOnce B size s p t := by
  obtain ⟨hpages, -, -, -⟩ := growthPages_spec hsize
  have hstart : heapStart ≤ s.brk := h.tiles ▸ Nat.le_add_right _ _
  have hbrk := (mapPages_spec (B := B) (growthPages size) s.brk s).1.2.1
  rw [wantBytes_eq hsize] at hpages
  cases ha with
  | @found pre post x p t ht => exact absurd ht.fits (hno x (by simp))
  | @grown l pre post x p m u t _ hu hl ht =>
    have hgrow := runs_growMapping_granted (B := B) hpages hstart hu.ceiling hu.granted
    have hne := ht.payload_ne_zero
    refine ⟨1, _, hgrow.1, ?_, ?_, ?_, ?_⟩
    · rw [ht.state, HeapState.setMem_brk, hu.state]
    · rw [ht.state, HeapState.setMem_env, hu.state]
    · simp [hne]
    · rw [if_neg hne, ht.state, HeapState.setMem_brk, hu.state, growthBytes_eq hsize]
  | ceiling _ hc =>
    have hgrow := runs_growMapping_ceiling (B := B) hpages h.brk_lt (by rwa [u32_of_lt hlt]) 0 0
    exact ⟨0, s, hgrow.1, rfl, rfl, Iff.rfl, (if_pos rfl).symm⟩
  | refused _ hpass hg hw =>
    have hgrow := runs_growMapping_refused (B := B) hpages hstart hpass hg hw
    refine ⟨0, _, hgrow.1, rfl, rfl, Iff.rfl, ?_⟩
    rw [if_pos rfl, hbrk]

/-- What is handed out after a growth comes from the end of the heap. -/
theorem Allocated.granted {size p : ℕ} (h : Tiled s l) (ha : Allocated B size s l p t l')
    (hp : p ≠ 0) : Granted size t.mem (Seg.starts headerSize heapStart l)
      (Seg.starts headerSize heapStart l') p := by
  cases ha with
  | found ht => exact ht.granted fun c hc => Or.inl hc
  | @grown l pre post x p m u t hno hu hl ht =>
    obtain ⟨init, y, e, hinit⟩ := Seg.merge_append_free headerSize h.merged
      (f := freshBlock (growthPages size)) rfl
    obtain ⟨rfl, rfl, rfl⟩ := Seg.firstFit_last (e.symm.trans hl)
      (fun z hz => hno z (hinit.subset hz)) ht.fits
    refine ht.granted ?_
    intro c hc
    rw [Seg.starts_append, List.mem_append, Seg.starts_cons, Seg.starts_nil,
      List.mem_singleton] at hc
    rcases hc with hc | hc
    · obtain ⟨post, rfl⟩ := hinit
      rw [Seg.starts_append]
      exact Or.inl (List.mem_append_left _ hc)
    · exact Or.inr (by rw [hc, ht.payload, Nat.add_sub_cancel])
  | ceiling => exact absurd rfl hp
  | refused => exact absurd rfl hp

/-- **`kmalloc` is first fit.** In every reachable state and for every request of at least one byte
and at most the size of the window, the call returns. It hands out the lowest block that is free and
large enough, without touching the break, or, if there is none, grows the heap once and fails
exactly when that is refused. What it hands out is `Granted`, and every other live allocation keeps
its block, the size of its block and its state. -/
theorem kmalloc_first_fit {p : HeapSystem σ} (h : HeapReach B (Windowed B) p) {n : ℕ} (h1 : 1 ≤ n)
    (h2 : n ≤ heapMax) : ∃ bs ptr t bs',
      BlockList p.heap.mem p.heap.head p.heap.brk bs ∧
      run (heapAct B) (kmalloc n) p.heap = some (ptr, t) ∧ BlockList t.mem t.head t.brk bs' ∧
      ((∃ b, IsLeast {b | b ∈ bs ∧ FitsAt p.heap.mem (align8 n) b} b ∧ ptr = b + headerSize ∧
          t.brk = p.heap.brk ∧ t.env = p.heap.env) ∨
        ((∀ b ∈ bs, ¬ FitsAt p.heap.mem (align8 n) b) ∧ GrowsOnce B (align8 n) p.heap ptr t)) ∧
      (ptr ≠ 0 → Granted (align8 n) t.mem bs bs' ptr) ∧
      ∀ a ∈ p.live, a.1 ≠ ptr ∧ a.1 - headerSize ∈ bs ∧ a.1 - headerSize ∈ bs' ∧
        sizeAt t.mem (a.1 - headerSize) = sizeAt p.heap.mem (a.1 - headerSize) ∧
        ¬ FreeAt p.heap.mem (a.1 - headerSize) ∧ ¬ FreeAt t.mem (a.1 - headerSize) := by
  obtain ⟨l, hinv⟩ := h.inv
  have h2' : n < 2 ^ 31 := h2.trans_lt (by decide)
  obtain ⟨hn, hle, hsize⟩ := payloadSize_align8 h1 h2'
  obtain ⟨ptr, t, l', hrun, ha⟩ :=
    runs_kmalloc hinv.tiled h1 h2' (growthInWindow_of_le hinv.tiled h2)
  have hinv' := hinv.allocated hn hle ha
  refine ⟨_, ptr, t, _, hinv.tiled.blockList, hrun.1, hinv'.tiled.blockList, ?_,
    ha.granted hinv.tiled, ?_⟩
  · by_cases hno : ∀ y ∈ l, ¬ y.Fits (align8 n)
    · refine Or.inr ⟨?_, ha.growsOnce hinv.tiled hsize (growth_lt_of_le hinv.tiled h2) hno⟩
      intro b hb hfit
      obtain ⟨y, hy, hyfit⟩ := hinv.tiled.headers.exists_fits hb hfit
      exact hno y hy hyfit
    · cases ha with
      | @found pre post x _ _ ht =>
        refine Or.inl ⟨_, hinv.tiled.isLeast_fitsAt ht.first ht.fits, ht.payload, ?_, ?_⟩
        · rw [ht.state, HeapState.setMem_brk]
        · rw [ht.state, HeapState.setMem_env]
      | grown hno' => exact absurd hno' hno
      | ceiling hno' => exact absurd hno' hno
      | refused hno' => exact absurd hno' hno
  · intro a halive
    obtain ⟨size, -, hin⟩ := hinv.accounts.sized a halive
    obtain ⟨hmem, hsizeAt, hused⟩ := hinv.tiled.headers.payload hin
    obtain ⟨hmem', hsizeAt', hused'⟩ := hinv'.tiled.headers.payload (ha.inUse hin)
    have hne := ha.ne_of_inUse hin
    exact ⟨hne, hmem, hmem', hsizeAt'.trans hsizeAt.symm, hused, hused'⟩

/-- A request for 100 bytes of a fresh heap. -/
theorem kmalloc_first_fit_fresh : ∃ bs ptr t bs',
    BlockList freshHeap.mem freshHeap.head freshHeap.brk bs ∧
      run (heapAct bumpBacking) (kmalloc 100) freshHeap = some (ptr, t) ∧
      BlockList t.mem t.head t.brk bs' ∧ (ptr ≠ 0 → Granted (align8 100) t.mem bs bs' ptr) := by
  obtain ⟨bs, ptr, t, bs', hbs, hrun, hbs', -, hgranted, -⟩ := kmalloc_first_fit (B := bumpBacking)
    (p := ⟨freshHeap, ∅⟩) (.start heapStarted_freshHeap) (n := 100) (by decide) (by decide)
  exact ⟨bs, ptr, t, bs', hbs, hrun, hbs', hgranted⟩

end JarvisOS
