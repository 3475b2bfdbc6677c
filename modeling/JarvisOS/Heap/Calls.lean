import JarvisOS.Heap.Growth

/-!
# What a call does to the heap

`Tiled s l` is the representation invariant of the heap: the blocks `l` tile `[heapStart, brk)` and
their headers are in memory. From such a state `kmalloc` takes a block (`Taken`), possibly after
the heap has grown (`Extended`), or returns `0` (`runs_kmalloc`), and `kfree` of a payload in use
frees its block (`Released`, `runs_kfree`). Each of the three relations names the list after the
step and the bytes that may have changed, and each keeps `Tiled`.
-/

namespace JarvisOS

open Foundations HeapOp Prog

variable {σ : Type} {B : Backing σ} {s t : HeapState σ} {l : List Seg}

/-- Sizes of payloads: multiples of eight, and not zero. -/
def PayloadSize (n : ℕ) : Prop := 8 ∣ n ∧ 0 < n

theorem PayloadSize.join (m n : ℕ) (hm : PayloadSize m) (hn : PayloadSize n) :
    PayloadSize (m + (headerSize + n)) :=
  ⟨Nat.dvd_add hm.1 (Nat.dvd_add (by decide) hn.1), Nat.add_pos_left hm.2 _⟩

/-- **The representation invariant**: the blocks `l` tile the mapped part of the window. -/
structure Tiled (s : HeapState σ) (l : List Seg) : Prop where
  ready : s.ready = 1
  head : s.head = heapStart
  headers : Holds s.mem heapStart l 0
  ne_nil : l ≠ []
  tiles : heapStart + Seg.span headerSize l = s.brk
  sizes : ∀ x ∈ l, PayloadSize x.size
  merged : Seg.NoFreeNeighbours l
  page : pageSize ∣ s.brk
  ceiling : s.brk ≤ heapStart + heapMax

theorem window_lt : heapStart + heapMax < 2 ^ 32 := by decide

/-- A list inside the window is short enough for every loop. -/
theorem length_lt_listFuel (h : Seg.span headerSize l ≤ heapMax) : l.length < listFuel := by
  have hlen := Seg.length_mul_le_span headerSize l
  simp only [headerSize, heapMax, listFuel] at *
  omega

namespace Tiled

theorem brk_lt (h : Tiled s l) : s.brk < 2 ^ 32 := h.ceiling.trans_lt window_lt

theorem length_lt (h : Tiled s l) : l.length < listFuel := by
  have := h.tiles
  have := h.ceiling
  exact length_lt_listFuel (by omega)

theorem spans (h : Tiled s l) {hi : ℕ} (hb : s.brk ≤ hi) (hi_lt : hi < 2 ^ 32) :
    Spans heapStart hi heapStart l :=
  ⟨by decide, le_rfl, h.tiles.trans_le hb, hi_lt⟩

/-- The part of the list from a block on. -/
theorem spans_drop {pre post : List Seg} (h : Tiled s (pre ++ post)) {hi : ℕ} (hb : s.brk ≤ hi)
    (hi_lt : hi < 2 ^ 32) : Spans heapStart hi (heapStart + Seg.span headerSize pre) post := by
  have := h.tiles
  rw [Seg.span_append] at this
  exact ⟨by decide, Nat.le_add_right _ _, by omega, hi_lt⟩

/-- The invariant depends on the heap's variables and its headers only. -/
theorem congr (h : Tiled s l) (hready : t.ready = s.ready) (hhead : t.head = s.head)
    (hbrk : t.brk = s.brk) (hm : ∀ b ∈ Seg.starts headerSize heapStart l,
      ∀ y, b ≤ y → y < b + headerSize → t.mem y = s.mem y) : Tiled t l where
  ready := hready.trans h.ready
  head := hhead.trans h.head
  headers := h.headers.congr_headers hm
  ne_nil := h.ne_nil
  tiles := h.tiles.trans hbrk.symm
  sizes := h.sizes
  merged := h.merged
  page := hbrk ▸ h.page
  ceiling := hbrk ▸ h.ceiling

/-- The headers lie below the break. -/
theorem starts_lt (h : Tiled s l) {b : ℕ} (hb : b ∈ Seg.starts headerSize heapStart l) :
    heapStart ≤ b ∧ b + headerSize ≤ s.brk :=
  h.tiles ▸ Seg.starts_bounds headerSize hb

/-- The size of a block is far from the end of the address space. -/
theorem size_lt (h : Tiled s l) {x : Seg} (hx : x ∈ l) : x.size + headerSize ≤ heapMax := by
  obtain ⟨pre, post, rfl⟩ := List.append_of_mem hx
  have htiles := h.tiles
  have := h.ceiling
  rw [Seg.span_append, Seg.span_cons] at htiles
  omega

end Tiled

/-! ## Taking a block -/

/-- A block `x` that fits is taken for `size` bytes: its payload is at `p`, and only its header and
the header of the rest are written. -/
structure Taken (size : ℕ) (s : HeapState σ) (pre : List Seg) (x : Seg) (post : List Seg) (p : ℕ)
    (t : HeapState σ) : Prop where
  fits : x.Fits size
  first : ∀ y ∈ pre, ¬ y.Fits size
  payload : p = heapStart + Seg.span headerSize pre + headerSize
  state : t = s.setMem t.mem
  list : Holds t.mem heapStart (pre ++ Seg.carve headerSize minSplit size x ++ post) 0
  frame : HeadersOnly (Seg.starts headerSize heapStart
    (pre ++ Seg.carve headerSize minSplit size x ++ post)) s.mem t.mem

/-- The pointer to a block is never null. -/
theorem Taken.payload_ne_zero {size p : ℕ} {pre post : List Seg} {x : Seg}
    (h : Taken size s pre x post p t) : p ≠ 0 := by
  have hp := h.payload
  rw [headerSize_eq] at hp
  omega

theorem HeadersOnly.mono {hs hs' : List ℕ} {m m' : Mem} (h : HeadersOnly hs m m')
    (hsub : ∀ b ∈ hs, b ∈ hs') : HeadersOnly hs' m m' :=
  fun y hy => h y fun b hb => hy b (hsub b hb)

/-- Taking a block that fits, with the list around it. -/
theorem runs_takeBlock_tiled {pre post : List Seg} {x : Seg} {size : ℕ}
    (h : Tiled s (pre ++ x :: post)) (hx : x.Fits size) :
    ∃ m, Runs (heapAct B) (InWindow heapStart s.brk)
        (takeBlock (heapStart + Seg.span headerSize pre) size) s
        (heapStart + Seg.span headerSize pre + headerSize) (s.setMem m) ∧
      Holds m heapStart (pre ++ Seg.carve headerSize minSplit size x ++ post) 0 ∧
      HeadersOnly (Seg.starts headerSize heapStart
        (pre ++ Seg.carve headerSize minSplit size x ++ post)) s.mem m := by
  have hlt := h.brk_lt
  obtain ⟨hholds, hlist⟩ := Holds.append_iff.1 h.headers
  obtain ⟨hhead, hpost⟩ := hlist
  have hspans := h.spans_drop le_rfl hlt
  have hsmall := h.size_lt (x := x) (by simp)
  have hM : minSplit = 16 := rfl
  have hX : heapMax = 4 * 1024 * 1024 := rfl
  set b := heapStart + Seg.span headerSize pre with hb
  set c := b + headerSize + x.size with hc
  have hone : Spans heapStart s.brk b [x] := by
    have := hspans.upper
    rw [Seg.span_cons] at this
    exact ⟨hspans.pos, hspans.lower, by simp only [Seg.span_cons, Seg.span_nil]; omega, hlt⟩
  have hn : linkTo c post 0 < 2 ^ 32 := by
    cases post with
    | nil => exact Nat.two_pow_pos 32
    | cons y post =>
      have := hspans.tail.room
      exact (Nat.le_add_right _ _).trans_lt (this.2.1.trans_lt this.2.2)
  obtain ⟨m, hrun, hcarve, hframe⟩ := runs_takeBlock (B := B) hone hhead hn hx (by omega)
  have hcspan := Seg.span_carve headerSize minSplit size x
  have houtside : ∀ y, y < b ∨ c ≤ y → m y = s.mem y := fun y hy => hframe y fun d hd => by
    have := Seg.starts_bounds headerSize hd
    omega
  refine ⟨m, hrun, ?_, ?_⟩
  · rw [List.append_assoc, Holds.append_iff, Holds.append_iff, hcspan, ← hb,
      show b + (headerSize + x.size) = c by omega]
    refine ⟨?_, hcarve, hpost.congr fun y hy _ => houtside y (Or.inr hy)⟩
    obtain ⟨z, l', e⟩ := List.exists_cons_of_ne_nil
      (Seg.carve_ne_nil headerSize minSplit size x)
    rw [e]
    exact hholds.congr fun y _ hy => houtside y (Or.inl hy)
  · refine hframe.mono fun d hd => ?_
    rw [List.append_assoc, Seg.starts_append, Seg.starts_append]
    exact List.mem_append_right _ (List.mem_append_left _ hd)

/-- The search of `kmalloc` takes the first block that fits. -/
theorem runs_searchLoop {pre post : List Seg} {x : Seg} {size : ℕ} (h : Tiled s (pre ++ x :: post))
    (hpre : ∀ y ∈ pre, ¬ y.Fits size) (hx : x.Fits size) :
    ∃ p t, Runs (heapAct B) (InWindow heapStart s.brk) (searchLoop size listFuel s.head) s
      (some p) t ∧
      Taken size s pre x post p t := by
  obtain ⟨m, hrun, hlist, hframe⟩ := runs_takeBlock_tiled (B := B) h hx
  refine ⟨_, s.setMem m, ?_, hx, hpre, rfl, rfl, hlist, hframe⟩
  rw [h.head]
  refine runs_searchLoop_some ?_ h.headers (h.spans le_rfl h.brk_lt) hpre hx hrun
  have := h.length_lt
  rw [List.length_append] at this
  omega

/-- A carved block keeps the invariant. -/
theorem Tiled.carve {least size : ℕ} {pre post : List Seg} {x : Seg} {m : Mem}
    (h : Tiled s (pre ++ x :: post)) (hx : x.Fits size) (hsize : PayloadSize size)
    (hleast : 0 < least)
    (hm : Holds m heapStart (pre ++ Seg.carve headerSize least size x ++ post) 0) :
    Tiled (s.setMem m) (pre ++ Seg.carve headerSize least size x ++ post) := by
  have hspan : Seg.span headerSize (pre ++ Seg.carve headerSize least size x ++ post) =
      Seg.span headerSize (pre ++ x :: post) := by
    simp only [Seg.span_append, Seg.span_carve, Seg.span_cons]
    omega
  constructor
  case ready => exact h.ready
  case head => exact h.head
  case headers => exact hm
  case ne_nil => simp [Seg.carve_ne_nil]
  case tiles => exact hspan ▸ h.tiles
  case merged => exact Seg.noFreeNeighbours_carve headerSize hx.1 h.merged
  case page => exact h.page
  case ceiling => exact h.ceiling
  case sizes =>
    simp only [List.mem_append]
    rintro y ((hy | hy) | hy)
    · exact h.sizes y (by simp [hy])
    · have hxs := h.sizes x (by simp)
      refine Seg.forall_size_carve headerSize hsize hxs (fun hle => ⟨?_, ?_⟩) y hy
      · exact Nat.dvd_sub (Nat.dvd_sub hxs.1 hsize.1) (by decide)
      · omega
    · exact h.sizes y (by simp [hy])

/-- **Taking a block keeps the invariant.** -/
theorem Taken.tiled {size p : ℕ} {pre post : List Seg} {x : Seg} (ht : Taken size s pre x post p t)
    (h : Tiled s (pre ++ x :: post)) (hsize : PayloadSize size) :
    Tiled t (pre ++ Seg.carve headerSize minSplit size x ++ post) := by
  rw [ht.state]
  exact h.carve ht.fits hsize (by decide) ht.list

/-- Merging free neighbours keeps the invariant. -/
theorem Tiled.of_merge {l : List Seg} {t : HeapState σ} (hready : t.ready = 1)
    (hhead : t.head = heapStart)
    (hlist : Holds t.mem heapStart (Seg.merge headerSize l) 0) (hne : l ≠ [])
    (htiles : heapStart + Seg.span headerSize l = t.brk) (hsizes : ∀ x ∈ l, PayloadSize x.size)
    (hpage : pageSize ∣ t.brk) (hceiling : t.brk ≤ heapStart + heapMax) :
    Tiled t (Seg.merge headerSize l) where
  ready := hready
  head := hhead
  headers := hlist
  ne_nil := Seg.merge_ne_nil headerSize hne
  tiles := by rw [Seg.span_merge, htiles]
  sizes := Seg.forall_size_merge headerSize PayloadSize.join hsizes
  merged := Seg.noFreeNeighbours_merge headerSize _
  page := hpage
  ceiling := hceiling

/-! ## Growing -/

/-- The block made of `pages` new pages. -/
def freshBlock (pages : ℕ) : Seg := ⟨pages * pageSize - headerSize, true⟩

/-- The heap has grown by `pages` pages: a new block is appended (in memory `m`) and merged with
the last one if that was free. -/
structure Extended (B : Backing σ) (s : HeapState σ) (l : List Seg) (pages : ℕ) (m : Mem)
    (t : HeapState σ) : Prop where
  granted : (mapPages B pages s.brk s).1 = pages
  room : 4 ≤ pages
  ceiling : s.brk + pages * pageSize ≤ heapStart + heapMax
  state : t = { (mapPages B pages s.brk s).2 with brk := s.brk + pages * pageSize, mem := t.mem }
  linked : Holds m heapStart (l ++ [freshBlock pages]) 0
  header : HeadersOnly (Seg.starts headerSize heapStart (l ++ [freshBlock pages]))
    (mapPages B pages s.brk s).2.mem m
  list : Holds t.mem heapStart (Seg.merge headerSize (l ++ [freshBlock pages])) 0
  links : LinksOnly (Seg.starts headerSize heapStart
    (Seg.merge headerSize (l ++ [freshBlock pages]))) m t.mem

theorem span_freshBlock {pages : ℕ} (h : 4 ≤ pages) :
    Seg.span headerSize [freshBlock pages] = pages * pageSize := by
  simp only [Seg.span_cons, Seg.span_nil, freshBlock, headerSize, pageSize]
  omega

/-- **Growing keeps the invariant.** -/
theorem Extended.tiled {pages : ℕ} {m : Mem} (ht : Extended B s l pages m t) (h : Tiled s l) :
    Tiled t (Seg.merge headerSize (l ++ [freshBlock pages])) := by
  obtain ⟨hhead, -, hready, -⟩ := (mapPages_spec (B := B) pages s.brk s).1
  have hroom := ht.room
  apply Tiled.of_merge _ _ ht.list (by simp)
  · rw [ht.state, Seg.span_append, span_freshBlock ht.room, ← Nat.add_assoc, h.tiles]
  · intro y hy
    rcases List.mem_append.1 hy with hy | hy
    · exact h.sizes y hy
    · rw [List.mem_singleton.1 hy]
      simp only [PayloadSize, freshBlock, pageSize, headerSize]
      omega
  · rw [ht.state]; exact Nat.dvd_add h.page (Nat.dvd_mul_left _ _)
  · rw [ht.state]; exact ht.ceiling
  · rw [ht.state]; exact hready.trans h.ready
  · rw [ht.state]; exact hhead.trans h.head

/-- The pages by which the heap grows for a payload. -/
def growthPages (payload : ℕ) : ℕ := roundPages (wantBytes payload) / pageSize

theorem growthPages_eq {payload : ℕ} (h : payload ≤ 2 ^ 31) :
    roundPages (wantBytes payload) = growthPages payload * pageSize ∧
      growthPages payload = (max (payload + 16) 16384 + 4095) / 4096 := by
  have hw : wantBytes payload = max (payload + 16) 16384 := by
    simp only [wantBytes, headerSize, pageSize]
    rw [u32_of_lt (by omega)]
    split_ifs <;> omega
  have hr : roundPages (wantBytes payload) = (wantBytes payload + 4095) / 4096 * 4096 :=
    roundPages_eq (by omega)
  simp only [growthPages, pageSize]
  omega

theorem growthPages_spec {payload : ℕ} (h : payload ≤ 2 ^ 31) :
    roundPages (wantBytes payload) = growthPages payload * pageSize ∧ 4 ≤ growthPages payload ∧
      payload + headerSize ≤ growthPages payload * pageSize ∧
      growthPages payload * pageSize ≤ max (payload + 8192) 16384 := by
  obtain ⟨h1, h2⟩ := growthPages_eq h
  refine ⟨h1, ?_⟩
  simp only [headerSize, pageSize]
  omega

/-- **After a growth a block fits.** -/
theorem exists_firstFit_grown {size : ℕ} (h : size ≤ 2 ^ 31) (l : List Seg) : ∃ pre x post,
    Seg.merge headerSize (l ++ [freshBlock (growthPages size)]) = pre ++ x :: post ∧
      (∀ y ∈ pre, ¬ y.Fits size) ∧ x.Fits size := by
  obtain ⟨-, -, hpay, -⟩ := growthPages_spec h
  obtain ⟨y, hy, hfit⟩ := Seg.exists_fits_merge headerSize (n := size)
    (l := l ++ [freshBlock (growthPages size)])
    ⟨_, List.mem_append_right _ List.mem_cons_self, rfl, by simp only [freshBlock]; omega⟩
  rcases Seg.firstFit size (Seg.merge headerSize (l ++ [freshBlock (growthPages size)])) with
    hno | hfound
  · exact absurd hfit (hno y hy)
  · exact hfound

/-- The pages of a growth below the ceiling lie in the window. -/
theorem inHeapWindow_of_le {virt i pages : ℕ} (hlo : heapStart ≤ virt)
    (hhi : virt + pages * pageSize ≤ heapStart + heapMax) (hi : i < pages) :
    InHeapWindow (u32 (virt + i * pageSize)) := by
  simp only [InHeapWindow, heapStart, heapMax, pageSize] at *
  rw [u32_of_lt (by omega)]
  omega

/-- The growth is granted. -/
theorem runs_growMapping_granted {bytes pages : ℕ} (hp : roundPages bytes = pages * pageSize)
    (hlo : heapStart ≤ s.brk) (hceil : s.brk + pages * pageSize ≤ heapStart + heapMax)
    (hg : (mapPages B pages s.brk s).1 = pages) :
    Runs (heapAct B) (InWindow heapStart (heapStart + heapMax)) (growMapping bytes) s 1
      { (mapPages B pages s.brk s).2 with brk := s.brk + pages * pageSize } := by
  have hwl := window_lt
  rw [runs_growMapping hp (by omega), if_neg, if_pos hg, u32_of_lt (by omega)]
  · exact ⟨fun i hi => inHeapWindow_of_le hlo hceil (hg ▸ hi), rfl, rfl⟩
  · rw [u32_of_lt (n := s.brk + pages * pageSize) (by omega), u32_of_lt hwl]
    omega

/-- The growth passes the test of the ceiling, and the backing gives out inside the window. -/
theorem runs_growMapping_refused {bytes pages : ℕ} (hp : roundPages bytes = pages * pageSize)
    (hlo : heapStart ≤ s.brk) (hceil : u32 (s.brk + pages * pageSize) ≤ heapStart + heapMax)
    (hlt : (mapPages B pages s.brk s).1 < pages)
    (hend : s.brk + (mapPages B pages s.brk s).1 * pageSize ≤ heapStart + heapMax) :
    Runs (heapAct B) (InWindow heapStart (heapStart + heapMax)) (growMapping bytes) s 0
      (mapPages B pages s.brk s).2 := by
  have hwl := window_lt
  rw [runs_growMapping hp (by omega), if_neg (by rw [u32_of_lt hwl]; omega), if_neg hlt.ne]
  exact ⟨fun i hi => inHeapWindow_of_le hlo hend hi, rfl, rfl⟩

/-- The growth is stopped at the ceiling. -/
theorem runs_growMapping_ceiling {bytes pages : ℕ} (hp : roundPages bytes = pages * pageSize)
    (hb : s.brk < 2 ^ 32) (hceil : heapStart + heapMax < u32 (s.brk + pages * pageSize))
      (lo hi : ℕ) :
    Runs (heapAct B) (InWindow lo hi) (growMapping bytes) s 0 s := by
  rw [runs_growMapping hp hb, if_pos (by rwa [u32_of_lt window_lt])]
  exact ⟨rfl, rfl⟩

/-- Growth does not touch what was mapped before. -/
theorem mapPages_mem_below (h : Tiled s l) {pages : ℕ}
    (hg : s.brk + (mapPages B pages s.brk s).1 * pageSize ≤ 2 ^ 32) {y : ℕ} (hy : y < s.brk) :
    (mapPages B pages s.brk s).2.mem y = s.mem y := by
  refine (mapPages_spec pages s.brk s).2 y (fun i hi => ?_) h.brk_lt
  obtain ⟨k, hk⟩ := h.page
  simp only [pageSize] at *
  rw [u32_of_lt (by omega)]
  omega

theorem Tiled.mapPages (h : Tiled s l) {pages : ℕ}
    (hg : s.brk + (mapPages B pages s.brk s).1 * pageSize ≤ 2 ^ 32) :
    Tiled (JarvisOS.mapPages B pages s.brk s).2 l := by
  obtain ⟨hhead, hbrk, hready, -⟩ := (mapPages_spec (B := B) pages s.brk s).1
  exact h.congr hready hhead hbrk fun b hb y _ hy =>
    mapPages_mem_below h hg (hy.trans_le (h.starts_lt hb).2)

/-- Memory after the header of a new block has been written at `b` and linked from `tail`. -/
def appendMem (m : Mem) (tail b : ℕ) (x : Seg) : Mem :=
  (IsHeader.put m b x 0).write32 (tail + 8) b

/-- Appending a block to the list. -/
theorem Holds.appendMem {m : Mem} {a b tail : ℕ} {init : List Seg} {last x : Seg}
    (h : Holds m a (init ++ [last]) 0) (ht : tail = a + Seg.span headerSize init)
    (hb : b = tail + headerSize + last.size) (hlt : b < 2 ^ 32) (hx : x.size < 2 ^ 32) :
    Holds (appendMem m tail b x) a (init ++ [last] ++ [x]) 0 ∧
      HeadersOnly (Seg.starts headerSize a (init ++ [last] ++ [x])) m
        (JarvisOS.appendMem m tail b x) := by
  subst ht
  have hH := headerSize_eq
  obtain ⟨hinit, hlast, -⟩ := Holds.append_iff.1 h
  have hout : ∀ y, y < b ∨ b + headerSize ≤ y → y < a + Seg.span headerSize init + 8 ∨
      a + Seg.span headerSize init + 12 ≤ y →
      JarvisOS.appendMem m (a + Seg.span headerSize init) b x y = m y := fun y h1 h2 => by
    rw [JarvisOS.appendMem, Mem.write32_apply_of_disjoint _ _ (by omega),
      IsHeader.put_apply_of_disjoint _ _ _ h1]
  refine ⟨?_, fun y hy => hout y (hy b ?_) ?_⟩
  · rw [List.append_assoc, List.singleton_append, Holds.append_iff]
    refine ⟨hinit.congr fun y _ hy => hout y (by omega) (by omega), ?_, ?_, trivial⟩
    · rw [linkTo_cons, ← hb]
      exact IsHeader.setNext (n := 0) (hlast.congr fun y h1 h2 =>
        IsHeader.put_apply_of_disjoint m x 0 (by omega)) hlt
    · rw [← hb]
      exact (IsHeader.of_put m b x hx (by decide)).write_of_disjoint (by omega)
  · rw [Seg.starts_append, Seg.span_append, Seg.span_cons, Seg.span_nil,
      show a + (Seg.span headerSize init + (headerSize + last.size + 0)) = b by omega]
    exact List.mem_append_right _ List.mem_cons_self
  · have := hy (a + Seg.span headerSize init) (by
      rw [Seg.starts_append, Seg.starts_append]
      exact List.mem_append_left _ (List.mem_append_right _ List.mem_cons_self))
    omega

/-- The last block of the list. -/
theorem Tiled.exists_last (h : Tiled s l) : ∃ init last, l = init ++ [last] :=
  ⟨l.dropLast, l.getLast h.ne_nil, (List.dropLast_append_getLast h.ne_nil).symm⟩

/-- **`extend_heap` appends a block** once the mapping has grown, in state `g`. -/
theorem runs_appendBlock (h : Tiled s l) {pages : ℕ} {g : HeapState σ} (hroom : 4 ≤ pages)
    (hceil : s.brk + pages * pageSize ≤ heapStart + heapMax)
    (hhead : g.head = heapStart) (hbrk : g.brk = s.brk + pages * pageSize)
    (hold : ∀ y < s.brk, g.mem y = s.mem y) :
    ∃ m₁ m, Runs (heapAct B) (InWindow heapStart g.brk) (appendBlock s.brk) g 1 (g.setMem m) ∧
      (Holds m₁ heapStart (l ++ [freshBlock pages]) 0 ∧
        HeadersOnly (Seg.starts headerSize heapStart (l ++ [freshBlock pages])) g.mem m₁) ∧
      Holds m heapStart (Seg.merge headerSize (l ++ [freshBlock pages])) 0 ∧
      LinksOnly (Seg.starts headerSize heapStart
        (Seg.merge headerSize (l ++ [freshBlock pages]))) m₁ m := by
  have hgl : s.brk + pages * pageSize < 2 ^ 32 := hceil.trans_lt window_lt
  have hfresh := span_freshBlock hroom
  have hstart : heapStart ≤ s.brk := h.tiles ▸ Nat.le_add_right _ _
  have hle : s.brk ≤ s.brk + pages * pageSize := Nat.le_add_right _ _
  obtain ⟨init, last, rfl⟩ := h.exists_last
  have hspan : heapStart + Seg.span headerSize (init ++ [last] ++ [freshBlock pages]) =
      s.brk + pages * pageSize := by
    rw [Seg.span_append, hfresh, ← Nat.add_assoc, h.tiles]
  rw [Seg.span_cons, Seg.span_nil] at hfresh
  have htail := (h.spans_drop hle hgl).room
  have htiles := h.tiles
  rw [Seg.span_append, Seg.span_cons, Seg.span_nil] at htiles
  set tail := heapStart + Seg.span headerSize init with htaileq
  have hrest : sub32 (sub32 (s.brk + pages * pageSize) s.brk) headerSize =
      (freshBlock pages).size := by
    rw [sub32_of_le (a := s.brk + pages * pageSize) (by omega) (by omega),
      sub32_of_le (by omega) (by omega)]
    omega
  have hrb : Room heapStart (s.brk + pages * pageSize) s.brk := ⟨hstart, by omega, hgl⟩
  have hg : Holds g.mem heapStart (init ++ [last]) 0 :=
    h.headers.congr fun y _ hy => hold y (h.tiles ▸ hy)
  obtain ⟨hlinked, hframe⟩ := hg.appendMem (b := s.brk) (x := freshBlock pages) htaileq (by omega)
    h.brk_lt (by omega)
  set m₁ := appendMem g.mem tail s.brk (freshBlock pages) with hm₁
  obtain ⟨x, l', e⟩ := List.exists_cons_of_ne_nil
    (show init ++ [last] ++ [freshBlock pages] ≠ [] by simp)
  rw [e] at hlinked hframe hspan ⊢
  obtain ⟨m, hco, hlist, hlinks⟩ := runs_coalesce (B := B) (s := g.setMem m₁) (l := l') (x := x)
    heapStart (s.brk + pages * pageSize)
    (Nat.lt_of_succ_lt (length_lt_listFuel (l := x :: l') (by omega)))
    (by rw [HeapState.setMem_head, hhead]; exact hlinked)
    (by rw [HeapState.setMem_head, hhead]; exact ⟨by decide, le_rfl, hspan.le, hgl⟩)
  rw [HeapState.setMem_head, hhead] at hlist hlinks
  refine ⟨m₁, m, ?_, ⟨hlinked, hframe⟩, hlist, hlinks⟩
  rw [hbrk, appendBlock, runs_setMagic hrb, runs_getBrk, HeapState.setMem_brk, hbrk, hrest,
    runs_setSize hrb, runs_setNext hrb, runs_setFree hrb, runs_getHead]
  simp only [HeapState.setMem_mem, HeapState.setMem_setMem, HeapState.setMem_head, hhead]
  refine (runs_tailLoop init last ?_ ?_ (h.spans hle hgl)).bind ?_
  · have := h.length_lt
    rw [List.length_append] at this
    exact Nat.lt_of_succ_lt this
  · refine hg.congr fun y _ hy => ?_
    rw [h.tiles] at hy
    rw [HeapState.setMem_mem]
    repeat rw [Mem.write32_apply_of_disjoint _ _ (by omega)]
  · rw [runs_setNext htail]
    exact hco.bind runs_ret

/-- **`extend_heap` grows the heap** when the ceiling and the backing allow it: the mapping, and
then the block in the new pages. -/
theorem runs_extendHeap_granted (h : Tiled s l) {payload : ℕ} (hp : payload ≤ 2 ^ 31)
    (hceil : s.brk + growthPages payload * pageSize ≤ heapStart + heapMax)
    (hg : (mapPages B (growthPages payload) s.brk s).1 = growthPages payload) :
    ∃ g m t, Runs (heapAct B) (InWindow heapStart (heapStart + heapMax))
        (growMapping (wantBytes payload)) s 1 g ∧
      Runs (heapAct B) (InWindow heapStart g.brk) (appendBlock s.brk) g 1 t ∧
      g.env = (mapPages B (growthPages payload) s.brk s).2.env ∧
      g.brk = s.brk + growthPages payload * pageSize ∧
      Extended B s l (growthPages payload) m t := by
  obtain ⟨hpages, hroom, -, -⟩ := growthPages_spec hp
  set pages := growthPages payload
  have hend : s.brk + (mapPages B pages s.brk s).1 * pageSize ≤ 2 ^ 32 := by
    rw [hg]
    exact hceil.trans window_lt.le
  have hbelow : ∀ y < s.brk, (mapPages B pages s.brk s).2.mem y = s.mem y := fun y hy =>
    mapPages_mem_below h hend hy
  have hhead := (mapPages_spec (B := B) pages s.brk s).1.1
  have hstart : heapStart ≤ s.brk := h.tiles ▸ Nat.le_add_right _ _
  have hgrow := runs_growMapping_granted (B := B) hpages hstart hceil hg
  obtain ⟨m₁, m, hrun, ⟨hlinked, hframe⟩, hlist, hlinks⟩ :=
    runs_appendBlock (B := B) h (g := { (mapPages B pages s.brk s).2 with
      brk := s.brk + pages * pageSize }) hroom hceil (hhead.trans h.head) rfl hbelow
  exact ⟨_, m₁, _, hgrow, hrun, rfl, rfl, hg, hroom, hceil, rfl, hlinked, hframe, hlist, hlinks⟩

/-- The two parts together. -/
theorem runs_extendHeap_of_grown {payload hi : ℕ} {g : HeapState σ}
    (hgrow : Runs (heapAct B) (InWindow heapStart hi) (growMapping (wantBytes payload)) s 1 g)
    (hrun : Runs (heapAct B) (InWindow heapStart hi) (appendBlock s.brk) g 1 t) :
    Runs (heapAct B) (InWindow heapStart hi) (extendHeap payload) s 1 t := by
  rw [extendHeap_eq, runs_getBrk]
  refine hgrow.bind ?_
  rwa [if_neg Nat.one_ne_zero]

theorem runs_extendHeap_of_refused {lo hi payload : ℕ}
    (hgrow : Runs (heapAct B) (InWindow lo hi) (growMapping (wantBytes payload)) s 0 t) :
    Runs (heapAct B) (InWindow lo hi) (extendHeap payload) s 0 t := by
  rw [extendHeap, runs_getBrk]
  exact hgrow.bind runs_ret

/-! ## `kmalloc` -/

/-- The growth for a payload would go past the ceiling. -/
def PastCeiling (size : ℕ) (s : HeapState σ) : Prop :=
  heapStart + heapMax < s.brk + growthPages size * pageSize

/-- What `kmalloc` may do for `size` bytes: take the first block that fits; or, if none fits, grow
the heap and then take one; or refuse, at the ceiling or when the backing has given out. -/
inductive Allocated (B : Backing σ) (size : ℕ) (s : HeapState σ) :
    List Seg → ℕ → HeapState σ → List Seg → Prop
  | found {pre post : List Seg} {x : Seg} {p : ℕ} {t : HeapState σ}
      (ht : Taken size s pre x post p t) :
      Allocated B size s (pre ++ x :: post) p t
        (pre ++ Seg.carve headerSize minSplit size x ++ post)
  | grown {l pre post : List Seg} {x : Seg} {p : ℕ} {m : Mem} {u t : HeapState σ}
      (hno : ∀ y ∈ l, ¬ y.Fits size) (hu : Extended B s l (growthPages size) m u)
      (hl : Seg.merge headerSize (l ++ [freshBlock (growthPages size)]) = pre ++ x :: post)
      (ht : Taken size u pre x post p t) :
      Allocated B size s l p t (pre ++ Seg.carve headerSize minSplit size x ++ post)
  | ceiling {l : List Seg} (hno : ∀ y ∈ l, ¬ y.Fits size) (hc : PastCeiling size s) :
      Allocated B size s l 0 s l
  | refused {l : List Seg} (hno : ∀ y ∈ l, ¬ y.Fits size)
      (hpass : u32 (s.brk + growthPages size * pageSize) ≤ heapStart + heapMax)
      (hg : (mapPages B (growthPages size) s.brk s).1 < growthPages size)
      (hw : s.brk + (mapPages B (growthPages size) s.brk s).1 * pageSize ≤ heapStart + heapMax) :
      Allocated B size s l 0 (mapPages B (growthPages size) s.brk s).2 l

/-- The growth for a payload stays in the window: its end does not wrap around the address space,
or the backing gives out before the ceiling. -/
def GrowthInWindow (B : Backing σ) (size : ℕ) (s : HeapState σ) : Prop :=
  s.brk + growthPages size * pageSize < 2 ^ 32 ∨
    s.brk + B.grants (growthPages size) s.brk s.env * pageSize ≤ heapStart + heapMax

/-- The two attempts, when the first block that fits can be taken at once. -/
theorem runs_attemptLoop_found {pre post : List Seg} {x : Seg} {size : ℕ} (attempts : ℕ)
    (h : Tiled s (pre ++ x :: post)) (hpre : ∀ y ∈ pre, ¬ y.Fits size) (hx : x.Fits size) :
    ∃ p t, Runs (heapAct B) (InWindow heapStart (heapStart + heapMax))
      (attemptLoop size (attempts + 1)) s p t ∧ Taken size s pre x post p t := by
  obtain ⟨p, t, hrun, ht⟩ := runs_searchLoop (B := B) h hpre hx
  refine ⟨p, t, ?_, ht⟩
  rw [attemptLoop, runs_getHead]
  exact (hrun.mono (InWindow.mono h.ceiling)).bind runs_ret

/-- An attempt that finds nothing goes on to grow the heap. -/
theorem runs_attemptLoop_none (h : Tiled s l) {size attempts p : ℕ} (hno : ∀ y ∈ l, ¬ y.Fits size)
    (hext : Runs (heapAct B) (InWindow heapStart (heapStart + heapMax))
      (extendHeap size >>= fun extended => if extended = 0 then ret 0 else attemptLoop size
        attempts)
      s p t) :
    Runs (heapAct B) (InWindow heapStart (heapStart + heapMax)) (attemptLoop size (attempts + 1))
      s p t := by
  obtain ⟨x, l', rfl⟩ := List.exists_cons_of_ne_nil h.ne_nil
  rw [attemptLoop, runs_getHead, h.head]
  exact (runs_searchLoop_none loadsIn_inWindow h.length_lt h.headers (h.spans h.ceiling window_lt)
    hno).bind hext

/-- **`kmalloc` returns**, and does one of the things it may do. -/
theorem runs_attemptLoop (h : Tiled s l) {size : ℕ} (hsize : size ≤ 2 ^ 31)
    (hw : GrowthInWindow B size s) :
    ∃ p t l', Runs (heapAct B) (InWindow heapStart (heapStart + heapMax)) (attemptLoop size 2) s p t
      ∧ Allocated B size s l p t l' := by
  rcases Seg.firstFit size l with hno | ⟨pre, x, post, rfl, hpre, hx⟩
  swap
  · obtain ⟨p, t, hrun, ht⟩ := runs_attemptLoop_found (B := B) 1 h hpre hx
    exact ⟨p, t, _, hrun, .found ht⟩
  obtain ⟨hpages, -, -, hmany⟩ := growthPages_spec hsize
  have hwl := window_lt
  have hstart : heapStart ≤ s.brk := h.tiles ▸ Nat.le_add_right _ _
  -- the growth ends below the ceiling, above it, or wraps around
  by_cases hbelow : s.brk + growthPages size * pageSize ≤ heapStart + heapMax
  · by_cases hall : (mapPages B (growthPages size) s.brk s).1 = growthPages size
    · obtain ⟨g, m, u, hgrow, hblock, -, hgbrk, hu⟩ := runs_extendHeap_granted h hsize hbelow hall
      have hrun := runs_extendHeap_of_grown hgrow
        (hblock.mono (InWindow.mono (hgbrk.trans_le hbelow)))
      obtain ⟨pre, x, post, e, hpre, hx⟩ := exists_firstFit_grown hsize l
      obtain ⟨p, t, hrun', ht⟩ := runs_attemptLoop_found (B := B) 0 (e ▸ hu.tiled h) hpre hx
      exact ⟨p, t, _, runs_attemptLoop_none h hno (hrun.bind hrun'), .grown hno hu e ht⟩
    · have hlt := Nat.lt_of_le_of_ne (mapPages_le _ s.brk s) hall
      have hend := (Nat.add_le_add_left (Nat.mul_le_mul_right pageSize hlt.le) s.brk).trans hbelow
      have hpass : u32 (s.brk + growthPages size * pageSize) ≤ heapStart + heapMax := by
        rw [u32_of_lt (hbelow.trans_lt hwl)]
        exact hbelow
      have hgrow := runs_growMapping_refused hpages hstart hpass hlt hend
      exact ⟨0, _, l,
        runs_attemptLoop_none h hno ((runs_extendHeap_of_refused hgrow).bind runs_ret),
        .refused hno hpass hlt hend⟩
  · by_cases hwrap : s.brk + growthPages size * pageSize < 2 ^ 32
    · have hgrow := runs_growMapping_ceiling (B := B) hpages h.brk_lt
        (by rw [u32_of_lt hwrap]; omega) heapStart (heapStart + heapMax)
      exact ⟨0, s, l,
        runs_attemptLoop_none h hno ((runs_extendHeap_of_refused hgrow).bind runs_ret),
        .ceiling hno (Nat.lt_of_not_le hbelow)⟩
    · have hg := hw.resolve_left hwrap
      rw [← mapPages_fst] at hg
      have hlt : (mapPages B (growthPages size) s.brk s).1 < growthPages size := by
        refine Nat.lt_of_le_of_ne (mapPages_le _ s.brk s) fun e => ?_
        rw [e] at hg
        omega
      have hpass : u32 (s.brk + growthPages size * pageSize) ≤ heapStart + heapMax := by
        simp only [u32, heapStart, heapMax, pageSize] at *
        omega
      have hgrow := runs_growMapping_refused hpages hstart hpass hlt hg
      exact ⟨0, _, l,
        runs_attemptLoop_none h hno ((runs_extendHeap_of_refused hgrow).bind runs_ret),
        .refused hno hpass hlt hg⟩

theorem payloadSize_align8 {n : ℕ} (h1 : 1 ≤ n) (h2 : n < 2 ^ 31) :
    PayloadSize (align8 n) ∧ n ≤ align8 n ∧ align8 n ≤ 2 ^ 31 := by
  have e : align8 n = (n + 7) / 8 * 8 := align8_eq (by omega)
  unfold PayloadSize
  omega

/-- **`kmalloc`**, for every size that does not make the growth leave the window. -/
theorem runs_kmalloc (h : Tiled s l) {n : ℕ} (h1 : 1 ≤ n) (h2 : n < 2 ^ 31)
    (hw : GrowthInWindow B (align8 n) s) :
    ∃ p t l', Runs (heapAct B) (InWindow heapStart (heapStart + heapMax)) (kmalloc n) s p t ∧
      Allocated B (align8 n) s l p t l' := by
  obtain ⟨p, t, l', hrun, ha⟩ := runs_attemptLoop h (payloadSize_align8 h1 h2).2.2 hw
  refine ⟨p, t, l', ?_, ha⟩
  rw [kmalloc, runs_getReady, h.ready, if_neg Nat.one_ne_zero, if_neg (by omega)]
  exact hrun

/-- The growth for a request up to the size of the window does not wrap around. -/
theorem growth_lt_of_ceiling (h : s.brk ≤ heapStart + heapMax) {n : ℕ} (h2 : n ≤ heapMax) :
    s.brk + growthPages (align8 n) * pageSize < 2 ^ 32 := by
  have hX : heapMax = 4194304 := rfl
  have hsize : align8 n ≤ heapMax + 7 := by
    rw [align8_eq (by omega)]
    omega
  obtain ⟨-, -, -, hpages⟩ := growthPages_spec (show align8 n ≤ 2 ^ 31 by omega)
  have hS : heapStart = 3221225472 := rfl
  omega

theorem growth_lt_of_le (h : Tiled s l) {n : ℕ} (h2 : n ≤ heapMax) :
    s.brk + growthPages (align8 n) * pageSize < 2 ^ 32 := growth_lt_of_ceiling h.ceiling h2

/-- Requests up to the size of the window always stay in it. -/
theorem growthInWindow_of_le (h : Tiled s l) {n : ℕ} (h2 : n ≤ heapMax) :
    GrowthInWindow B (align8 n) s := Or.inl (growth_lt_of_le h h2)

/-! ## `kfree` -/

/-- The block `x` in use has been freed (in memory `m`) and merged with its neighbours. -/
structure Released (s : HeapState σ) (pre : List Seg) (x : Seg) (post : List Seg) (m : Mem)
    (t : HeapState σ) : Prop where
  used : x.free = false
  state : t = s.setMem t.mem
  freed : Holds m heapStart (pre ++ ⟨x.size, true⟩ :: post) 0
  header : HeadersOnly [heapStart + Seg.span headerSize pre] s.mem m
  list : Holds t.mem heapStart (Seg.merge headerSize (pre ++ ⟨x.size, true⟩ :: post)) 0
  links : LinksOnly (Seg.starts headerSize heapStart
    (Seg.merge headerSize (pre ++ ⟨x.size, true⟩ :: post))) m t.mem

/-- **Freeing keeps the invariant.** -/
theorem Released.tiled {pre post : List Seg} {x : Seg} {m : Mem} (ht : Released s pre x post m t)
    (h : Tiled s (pre ++ x :: post)) :
    Tiled t (Seg.merge headerSize (pre ++ ⟨x.size, true⟩ :: post)) := by
  apply Tiled.of_merge _ _ ht.list (by simp)
  · rw [ht.state]
    have := h.tiles
    simp only [Seg.span_append, Seg.span_cons] at this ⊢
    exact this
  · intro y hy
    simp only [List.mem_append, List.mem_cons] at hy
    rcases hy with hy | rfl | hy
    · exact h.sizes y (by simp [hy])
    · exact h.sizes x (by simp)
    · exact h.sizes y (by simp [hy])
  · rw [ht.state]; exact h.page
  · rw [ht.state]; exact h.ceiling
  · rw [ht.state]; exact h.ready
  · rw [ht.state]; exact h.head

/-- **`kfree` of a payload in use** returns `1` and frees its block, inside `[heapStart, brk)`. -/
theorem runs_kfree {pre post : List Seg} {x : Seg} (h : Tiled s (pre ++ x :: post))
    (hx : x.free = false) :
    ∃ m t, Runs (heapAct B) (InWindow heapStart s.brk)
      (kfree (heapStart + Seg.span headerSize pre + headerSize)) s 1 t ∧
      Released s pre x post m t := by
  have hH := headerSize_eq
  have hlt := h.brk_lt
  have hspans := h.spans_drop le_rfl hlt
  have hroom := hspans.room
  have hup := hspans.upper
  rw [Seg.span_cons] at hup
  have hpos := (h.sizes x (by simp)).2
  obtain ⟨hpre, hhead, hpost⟩ := Holds.append_iff.1 h.headers
  set b := heapStart + Seg.span headerSize pre with hb
  set m := s.mem.write32 (b + 12) 1 with hm
  have hout : ∀ y, y < b ∨ b + headerSize ≤ y → m y = s.mem y := fun y hy =>
    Mem.write32_apply_of_disjoint _ _ (by omega)
  have hfreed : Holds m heapStart (pre ++ ⟨x.size, true⟩ :: post) 0 := by
    refine Holds.append_iff.2 ⟨hpre.congr fun y _ hy => hout y (by omega), ?_,
      hpost.congr fun y hy _ => hout y (by omega)⟩
    exact hhead.setFree true
  obtain ⟨y, l', e⟩ := List.exists_cons_of_ne_nil
    (show pre ++ ⟨x.size, true⟩ :: post ≠ [] by simp)
  have hspan : heapStart + Seg.span headerSize (pre ++ ⟨x.size, true⟩ :: post) = s.brk := by
    have := h.tiles
    simp only [Seg.span_append, Seg.span_cons] at this ⊢
    exact this
  obtain ⟨m', hco, hlist, hlinks⟩ := runs_coalesce (B := B) (s := s.setMem m) (l := l') (x := y)
    heapStart s.brk
    (by
      have := h.ceiling
      have := length_lt_listFuel (l := y :: l') (by rw [← e]; omega)
      exact Nat.lt_of_succ_lt this)
    (by rw [HeapState.setMem_head, h.head, ← e]; exact hfreed)
    (by rw [HeapState.setMem_head, h.head, ← e]; exact ⟨by decide, le_rfl, hspan.le, hlt⟩)
  rw [HeapState.setMem_head, h.head] at hlist hlinks
  refine ⟨m, s.setMem m', ?_, hx, rfl, hfreed, fun y hy => hout y (hy b List.mem_cons_self), ?_, ?_⟩
  · have hsub : sub32 (b + headerSize) headerSize = b := by
      rw [sub32_of_le (Nat.le_add_left _ _) (by omega), Nat.add_sub_cancel]
    simp only [kfree, hsub]
    rw [if_neg (by omega), if_neg (by omega), runs_getBrk, if_neg (by omega), runs_getMagic hroom,
      hhead.magic, if_neg (fun h => h rfl), runs_getFree hroom hhead, hx,
      if_neg (by simp), runs_setFree hroom]
    exact hco.bind runs_ret
  · rw [e]; exact hlist
  · rw [e]; exact hlinks

/-! ## Statistics -/

/-- `heap_free` counts the payload bytes of the free blocks. -/
theorem runs_heapFree (h : Tiled s l) :
    Runs (heapAct B) (InWindow heapStart s.brk) heapUsed s (Seg.usedBytes headerSize l) s ∧
      Runs (heapAct B) (InWindow heapStart s.brk) heapFree s (Seg.freeBytes l) s := by
  have hlt := h.brk_lt
  have htiles := h.tiles
  have hsum := Seg.usedBytes_add_freeBytes headerSize l
  have hhead : linkTo heapStart l 0 = heapStart := by
    obtain ⟨x, l', rfl⟩ := List.exists_cons_of_ne_nil h.ne_nil
    rfl
  have hused : Runs (heapAct B) (InWindow heapStart s.brk) heapUsed s
      (Seg.usedBytes headerSize l) s := by
    have := runs_usedLoop (B := B) 0 h.length_lt h.headers (h.spans le_rfl hlt) (by omega)
    rw [hhead, Nat.zero_add] at this
    rw [heapUsed, runs_getHead, h.head]
    exact this
  refine ⟨hused, ?_⟩
  have hsize : sub32 s.brk heapStart = Seg.span headerSize l := by
    rw [sub32_of_le (by omega) hlt]
    omega
  have hfree : sub32 (Seg.span headerSize l) (Seg.usedBytes headerSize l) = Seg.freeBytes l := by
    rw [sub32_of_le (by omega) (by omega)]
    omega
  rw [heapFree, heapSize, bind_assoc, runs_getBrk, hsize]
  refine hused.bind ?_
  rw [hfree]
  exact runs_ret

end JarvisOS
