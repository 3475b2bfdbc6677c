import JarvisOS.Heap.Magic
import JarvisOS.Heap.Oversized

/-!
# What freeing leaves behind

`s.blocks` is the block list as data: what a walk along the links finds at each header. Freeing
merges all free neighbours, so the list is determined by the blocks in use (`Tiled.eq_of_inUse`).
Two facts about whole calls follow: `kfree` of what `kmalloc` has just returned restores the list
(`kfree_undoes_kmalloc`), and the order in which live pointers are freed does not matter
(`free_order_irrelevant`).
-/

namespace JarvisOS

open Foundations HeapOp Prog

variable {σ : Type} {B : Backing σ} {s t : HeapState σ} {l l' pre post : List Seg} {x : Seg}

/-! ## The block list as data -/

/-- A block as its header shows it. -/
structure Block where
  addr : ℕ
  size : ℕ
  free : Bool
  deriving DecidableEq

/-- The blocks that are visited from `p` on, following `next`. -/
def walkBlocks (m : Mem) : ℕ → ℕ → List Block
  | 0, _ => []
  | fuel + 1, p =>
    if p = 0 then []
    else ⟨p, sizeAt m p, decide (FreeAt m p)⟩ :: walkBlocks m fuel (m.read32 (p + 8))

/-- The heap's block list. -/
def HeapState.blocks (s : HeapState σ) : List Block := walkBlocks s.mem listFuel s.head

/-- The blocks of a list laid out from `a` on. -/
def blocksFrom : ℕ → List Seg → List Block
  | _, [] => []
  | a, x :: l => ⟨a, x.size, x.free⟩ :: blocksFrom (a + headerSize + x.size) l

@[simp] theorem blocksFrom_nil (a : ℕ) : blocksFrom a [] = [] := rfl

@[simp] theorem blocksFrom_cons (a : ℕ) (x : Seg) (l : List Seg) :
    blocksFrom a (x :: l) = ⟨a, x.size, x.free⟩ :: blocksFrom (a + headerSize + x.size) l := rfl

theorem map_addr_blocksFrom (a : ℕ) (l : List Seg) :
    (blocksFrom a l).map Block.addr = Seg.starts headerSize a l := by
  induction l generalizing a with
  | nil => rfl
  | cons x l ih => rw [blocksFrom_cons, List.map_cons, ih, Seg.starts_cons]

/-- A walk along the headers of a list finds its blocks. -/
theorem Holds.walkBlocks {m : Mem} {a fuel : ℕ} (h : Holds m a l 0) (ha : 0 < a)
    (hfuel : l.length < fuel) : walkBlocks m fuel (linkTo a l 0) = blocksFrom a l := by
  induction l generalizing a fuel with
  | nil =>
    cases fuel with
    | zero => rfl
    | succ fuel => exact if_pos rfl
  | cons x l ih =>
    cases fuel with
    | zero => exact absurd hfuel (Nat.not_lt_zero _)
    | succ fuel =>
      have hfree : decide (FreeAt m a) = x.free := by
        rw [Bool.eq_iff_iff, decide_eq_true_iff]
        exact h.1.freeAt_iff
      rw [linkTo_cons, JarvisOS.walkBlocks, if_neg ha.ne', hfree, h.1.next, blocksFrom_cons,
        ih h.2 (by omega) (Nat.lt_of_succ_lt_succ hfuel)]
      exact congrArg (fun n => (⟨a, n, x.free⟩ : Block) :: _) h.1.size

/-- **The block list of a tiled heap.** -/
theorem Tiled.blocks (h : Tiled s l) : s.blocks = blocksFrom heapStart l := by
  have hwalk := h.headers.walkBlocks (by decide) h.length_lt
  obtain ⟨x, l', rfl⟩ := List.exists_cons_of_ne_nil h.ne_nil
  rw [HeapState.blocks, h.head]
  exact hwalk

/-- The list found by the walk is the block list in memory. -/
theorem Tiled.blockList_blocks (h : Tiled s l) :
    BlockList s.mem s.head s.brk (s.blocks.map Block.addr) := by
  rw [h.blocks, map_addr_blocksFrom]
  exact h.blockList

/-- **The blocks in use determine the list.** -/
theorem Tiled.eq_of_inUse (h : Tiled s l) (h' : Tiled t l') (hbrk : s.brk = t.brk)
    (huse : Seg.inUse headerSize heapStart l = Seg.inUse headerSize heapStart l') : l = l' := by
  have htiles := h.tiles
  have htiles' := h'.tiles
  refine Seg.eq_of_inUse headerSize (by decide) h.merged h'.merged ?_ huse
  omega

/-! ## `kfree` after `kmalloc` -/

/-- The block list with the bytes from `brk` on appended as free space: they join the last block if
that is free, and are a block of their own otherwise. -/
def appendFree : List Block → ℕ → ℕ → List Block
  | [], brk, bytes => [⟨brk, bytes - headerSize, true⟩]
  | [b], brk, bytes =>
    if b.free then [⟨b.addr, b.size + bytes, true⟩] else [b, ⟨brk, bytes - headerSize, true⟩]
  | b :: c :: bs, brk, bytes => b :: appendFree (c :: bs) brk bytes

/-- Appending a free segment and joining, seen at the blocks. -/
theorem blocksFrom_merge_append {a bytes : ℕ} (hl : l ≠ []) (h : Seg.NoFreeNeighbours l)
    (hbytes : headerSize ≤ bytes) :
    blocksFrom a (Seg.merge headerSize (l ++ [⟨bytes - headerSize, true⟩])) =
      appendFree (blocksFrom a l) (a + Seg.span headerSize l) bytes := by
  induction l generalizing a with
  | nil => exact absurd rfl hl
  | cons x l ih =>
    cases l with
    | nil =>
      rw [blocksFrom_cons, blocksFrom_nil, appendFree, List.cons_append, List.nil_append, Seg.merge,
        Seg.span_cons, Seg.span_nil]
      cases hx : x.free with
      | true =>
        rw [Seg.mergeFrom_join headerSize hx rfl, Seg.mergeFrom_nil, if_pos rfl,
          Nat.add_sub_cancel' hbytes]
        rfl
      | false =>
        rw [Seg.mergeFrom_skip headerSize (by simp [hx]), if_neg Bool.false_ne_true,
          blocksFrom_cons, hx, Nat.add_zero, ← Nat.add_assoc]
        rfl
    | cons y l =>
      have hskip := Seg.mergeFrom_skip headerSize (List.isChain_cons_cons.1 h).1
        (l ++ [⟨bytes - headerSize, true⟩])
      have hrest := ih (a := a + headerSize + x.size) (List.cons_ne_nil _ _) h.tail
      rw [List.cons_append, Seg.merge] at hrest
      rw [List.cons_append, Seg.merge, List.cons_append, hskip, blocksFrom_cons, hrest,
        Seg.span_cons headerSize x, ← Nat.add_assoc, ← Nat.add_assoc]
      rfl

/-- **Freeing a block just taken** restores the list from which it was taken. -/
theorem Taken.undone {size p : ℕ} (ht : Taken size s pre x post p t)
    (h : Tiled s (pre ++ x :: post))
    (hsize : PayloadSize size) : ∃ u, run (heapAct B) (kfree p) t = some (1, u) ∧
      Tiled u (pre ++ x :: post) ∧ u.brk = t.brk := by
  have htiled := ht.tiled h hsize
  obtain ⟨y, rest, hcarve⟩ := List.exists_cons_of_ne_nil
    (Seg.carve_ne_nil headerSize minSplit size x)
  have hused : y.free = false := by
    unfold Seg.carve at hcarve
    split_ifs at hcarve <;> exact (List.cons.inj hcarve).1 ▸ rfl
  rw [hcarve, List.append_assoc, List.cons_append] at htiled
  obtain ⟨m, u, hrun, hr⟩ := runs_kfree (B := B) htiled hused
  have hmerge := Seg.merge_release_carve headerSize (by decide) ht.fits.1 h.merged hcarve
  refine ⟨u, ?_, hmerge ▸ hr.tiled htiled, ?_⟩
  · rw [ht.payload]
    exact hrun.1
  · rw [hr.state]
    rfl

/-- **`kfree` undoes `kmalloc`.** In every reachable state, for every request of at least one byte
and at most the size of the window that is served: `kfree` of the pointer, right after, returns `1`
and leaves a block list. If the heap has not grown the list is what it was before the two calls;
otherwise it is the old list with the newly mapped bytes appended as free space. -/
theorem kfree_undoes_kmalloc {p : HeapSystem σ} (h : HeapReach B (Served B) p) {n ptr : ℕ}
    (h1 : 1 ≤ n) (h2 : n ≤ heapMax) (hrun : run (heapAct B) (kmalloc n) p.heap = some (ptr, t))
    (hptr : ptr ≠ 0) : ∃ u, run (heapAct B) (kfree ptr) t = some (1, u) ∧
      BlockList u.mem u.head u.brk (u.blocks.map Block.addr) ∧
      u.blocks = if t.brk = p.heap.brk then p.heap.blocks
        else appendFree p.heap.blocks p.heap.brk (t.brk - p.heap.brk) := by
  obtain ⟨l, hinv⟩ := h.inv_of_served
  have hlt : n < 2 ^ 31 := h2.trans_lt (by decide)
  obtain ⟨hn, -, hsize⟩ := payloadSize_align8 h1 hlt
  obtain ⟨ptr', t', l', hrun', ha⟩ := runs_kmalloc hinv.tiled h1 hlt
    (growthInWindow_of_le hinv.tiled h2)
  obtain ⟨rfl, rfl⟩ := hrun'.unique hrun
  cases ha with
  | found ht =>
    obtain ⟨u, hfree, htiled, -⟩ := ht.undone (B := B) hinv.tiled hn
    have hbrk : t.brk = p.heap.brk := by rw [ht.state, HeapState.setMem_brk]
    refine ⟨u, hfree, htiled.blockList_blocks, ?_⟩
    rw [if_pos hbrk, htiled.blocks, hinv.tiled.blocks]
  | @grown l pre post x ptr m v t hno hu hl ht =>
    obtain ⟨-, hroom, -, -⟩ := growthPages_spec hsize
    have hbytes : headerSize ≤ growthPages (align8 n) * pageSize := by
      rw [headerSize_eq, pageSize]
      omega
    obtain ⟨u, hfree, htiled, -⟩ := ht.undone (B := B) (hl ▸ hu.tiled hinv.tiled) hn
    have hbrk : t.brk = p.heap.brk + growthPages (align8 n) * pageSize := by
      rw [ht.state, HeapState.setMem_brk, hu.state]
    have hne : t.brk ≠ p.heap.brk := by
      rw [headerSize_eq] at hbytes
      omega
    refine ⟨u, hfree, htiled.blockList_blocks, ?_⟩
    rw [if_neg hne, htiled.blocks, hinv.tiled.blocks, ← hl, freshBlock,
      blocksFrom_merge_append hinv.tiled.ne_nil hinv.tiled.merged hbytes, hinv.tiled.tiles, hbrk,
      Nat.add_sub_cancel_left]
  | ceiling => exact absurd rfl hptr
  | refused => exact absurd rfl hptr

/-- On a fresh heap, `kfree` of what a request for eight bytes has returned leaves one free
block. -/
theorem kfree_undoes_kmalloc_fresh :
    ∃ u, run (heapAct bumpBacking) (kfree (heapStart + 16)) oneBlockHeap = some (1, u) ∧
      BlockList u.mem u.head u.brk (u.blocks.map Block.addr) ∧
      u.blocks = if oneBlockHeap.brk = freshHeap.brk then freshHeap.blocks
        else appendFree freshHeap.blocks freshHeap.brk (oneBlockHeap.brk - freshHeap.brk) :=
  kfree_undoes_kmalloc (p := ⟨freshHeap, ∅⟩) (.start heapStarted_freshHeap) (by decide) (by decide)
    run_oneBlockHeap (by decide)

/-! ## Freeing one pointer after the other -/

/-- Free the pointers one by one, and collect what `kfree` returns. -/
def freeEach : List ℕ → HeapM (List ℕ)
  | [] => pure []
  | ptr :: ptrs => do
    let r ← kfree ptr
    let rs ← freeEach ptrs
    pure (r :: rs)

/-- The payloads in use at other addresses than those freed. -/
def leftInUse (ptrs : List ℕ) (l : List Seg) : List (ℕ × ℕ) :=
  (Seg.inUse headerSize heapStart l).filter fun c => c.1 ∉ ptrs

/-- Freeing one block takes its payload off those in use. -/
theorem Released.inUse {m : Mem} (hr : Released s pre x post m t) :
    Seg.inUse headerSize heapStart (Seg.merge headerSize (pre ++ ⟨x.size, true⟩ :: post)) =
      leftInUse [heapStart + Seg.span headerSize pre + headerSize] (pre ++ x :: post) := by
  rw [Seg.inUse_merge, Seg.inUse_release headerSize pre post hr.used (by decide), leftInUse]
  simp only [List.mem_singleton]

theorem leftInUse_cons {ptr : ℕ} {ptrs : List ℕ}
    (h : Seg.inUse headerSize heapStart l' = leftInUse [ptr] l) :
    leftInUse ptrs l' = leftInUse (ptr :: ptrs) l := by
  rw [leftInUse, h, leftInUse, leftInUse, List.filter_filter]
  apply List.filter_congr
  intro c _
  simp [Bool.and_comm]

/-- **Freeing live pointers one by one** succeeds for each, does not move the break, and takes
exactly their payloads off those in use. -/
theorem run_freeEach {live : Set (ℕ × ℕ)} {ptrs : List ℕ} (h : HeapInv ⟨s, live⟩ l)
    (hlive : ∀ ptr ∈ ptrs, ∃ b ∈ live, b.1 = ptr) (hnodup : ptrs.Nodup) :
    ∃ u l', run (heapAct B) (freeEach ptrs) s = some (ptrs.map fun _ => 1, u) ∧ Tiled u l' ∧
      u.brk = s.brk ∧ Seg.inUse headerSize heapStart l' = leftInUse ptrs l := by
  induction ptrs generalizing s live l with
  | nil =>
    refine ⟨s, l, rfl, h.tiled, rfl, ?_⟩
    simp [leftInUse]
  | cons ptr ptrs ih =>
    obtain ⟨hnot, hrestNodup⟩ := List.nodup_cons.1 hnodup
    obtain ⟨⟨b, hb, rfl⟩, hrest⟩ := List.forall_mem_cons.1 hlive
    obtain ⟨pre, x, post, rfl, hx, -, hptr⟩ := h.exists_block hb
    obtain ⟨m, v, hrun, hr⟩ := runs_kfree (B := B) h.tiled hx
    rw [← hptr] at hrun
    have hinv : HeapInv ⟨v, {c ∈ live | c.1 ≠ b.1}⟩
        (Seg.merge headerSize (pre ++ ⟨x.size, true⟩ :: post)) :=
      ⟨hr.tiled h.tiled, hptr ▸ h.accounts.release hx⟩
    obtain ⟨u, l', hrun', htiled, hbrk, huse⟩ := ih hinv (fun ptr hmem => by
      obtain ⟨c, hc, rfl⟩ := hrest ptr hmem
      exact ⟨c, ⟨hc, fun e => hnot (e ▸ hmem)⟩, rfl⟩) hrestNodup
    refine ⟨u, l', ?_, htiled, ?_, ?_⟩
    · rw [freeEach, run_bind_of_run (heapAct B) hrun.1, run_bind_of_run (heapAct B) hrun']
      rfl
    · rw [hbrk, hr.state, HeapState.setMem_brk]
    · rw [huse]
      exact leftInUse_cons (hptr ▸ hr.inUse)

/-- **The order of frees does not matter.** In every reachable state, for every two orders in which
to free a set of live pointers: each `kfree` returns `1`, and the block lists at the end are the
same. If all live pointers are freed, one free block is left, which covers the heap. -/
theorem free_order_irrelevant {p : HeapSystem σ} (h : HeapReach B (Served B) p)
    {ptrs order : List ℕ}
    (hlive : ∀ ptr ∈ ptrs, ∃ b ∈ p.live, b.1 = ptr) (hnodup : ptrs.Nodup)
    (hperm : order.Perm ptrs) :
    ∃ u v, run (heapAct B) (freeEach ptrs) p.heap = some (ptrs.map fun _ => 1, u) ∧
      run (heapAct B) (freeEach order) p.heap = some (order.map fun _ => 1, v) ∧
      BlockList u.mem u.head u.brk (u.blocks.map Block.addr) ∧ u.blocks = v.blocks ∧
      ((∀ b ∈ p.live, b.1 ∈ ptrs) →
        u.blocks = [⟨heapStart, p.heap.brk - heapStart - headerSize, true⟩]) := by
  obtain ⟨l, hinv⟩ := h.inv_of_served
  obtain ⟨u, l₁, hrun, htiled, hbrk, huse⟩ := run_freeEach (B := B) hinv hlive hnodup
  have hlive' : ∀ ptr ∈ order, ∃ b ∈ p.live, b.1 = ptr := fun ptr hmem =>
    hlive ptr (hperm.mem_iff.1 hmem)
  obtain ⟨v, l₂, hrun', htiled', hbrk', huse'⟩ := run_freeEach (B := B) hinv hlive'
    (hperm.nodup_iff.2 hnodup)
  refine ⟨u, v, hrun, hrun', htiled.blockList_blocks, ?_, fun hall => ?_⟩
  · have hsame : leftInUse ptrs l = leftInUse order l := by
      unfold leftInUse
      simp only [hperm.mem_iff]
    rw [htiled.blocks, htiled'.blocks, htiled.eq_of_inUse htiled' (hbrk.trans hbrk'.symm)
      ((huse.trans hsame).trans huse'.symm)]
  · have hnone : Seg.inUse headerSize heapStart l₁ = [] := by
      rw [huse, leftInUse, List.filter_eq_nil_iff]
      intro c hc
      obtain ⟨n, hn⟩ := hinv.accounts.owned c hc
      simpa using hall _ hn
    have htiles := htiled.tiles
    have hone : l₁ = [⟨u.brk - heapStart - headerSize, true⟩] := by
      obtain ⟨x, l, rfl⟩ := List.exists_cons_of_ne_nil htiled.ne_nil
      rw [Seg.span_cons] at htiles
      refine Seg.eq_of_inUse headerSize (by decide) (a := heapStart) htiled.merged
        (List.isChain_singleton _) ?_ ?_
      · simp only [Seg.span_cons, Seg.span_nil]
        omega
      · rw [hnone]
        exact (Seg.inUse_cons_free headerSize rfl heapStart []).symm
    rw [htiled.blocks, hone, hbrk]
    rfl

/-- The two blocks of a heap, freed in either order. -/
theorem free_order_irrelevant_twoBlock : ∃ u v,
    run (heapAct bumpBacking) (freeEach [heapStart + 16, heapStart + 40]) twoBlockHeap =
        some ([1, 1], u) ∧
      run (heapAct bumpBacking) (freeEach [heapStart + 40, heapStart + 16]) twoBlockHeap =
        some ([1, 1], v) ∧ u.blocks = v.blocks := by
  have hwindow : ∀ {q : HeapSystem ℕ} {l : List Seg}, HeapInv q l →
      Served bumpBacking q (.kmalloc 8) := fun hinv =>
    Or.inl ⟨by decide, by decide, growthInWindow_of_le hinv.tiled (by decide)⟩
  have h₀ : HeapReach bumpBacking (Served bumpBacking) ⟨freshHeap, ∅⟩ :=
    .start heapStarted_freshHeap
  obtain ⟨l₀, hinv₀⟩ := h₀.inv_of_served
  have h₁ := Reach.next h₀ ⟨.kmalloc 8, hwindow hinv₀, .kmalloc run_oneBlockHeap⟩
  obtain ⟨l₁, hinv₁⟩ := HeapReach.inv_of_served h₁
  have h₂ := Reach.next h₁ ⟨.kmalloc 8, hwindow hinv₁, .kmalloc run_twoBlockHeap⟩
  have hlive : ∀ ptr ∈ [heapStart + 16, heapStart + 40],
      ∃ b ∈ insert (heapStart + 40, 8) (insert (heapStart + 16, 8) (∅ : Set (ℕ × ℕ))),
        b.1 = ptr := by
    intro ptr hptr
    rcases List.mem_cons.1 hptr with rfl | hptr
    · exact ⟨(heapStart + 16, 8), Or.inr (Or.inl rfl), rfl⟩
    · rw [List.mem_singleton.1 hptr]
      exact ⟨(heapStart + 40, 8), Or.inl rfl, rfl⟩
  obtain ⟨u, v, hrun, hrun', -, hsame, -⟩ := free_order_irrelevant h₂ hlive (by decide)
    (List.Perm.swap (heapStart + 16) (heapStart + 40) [])
  exact ⟨u, v, hrun, hrun', hsame⟩

end JarvisOS
