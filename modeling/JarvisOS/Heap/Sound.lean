import JarvisOS.Heap.Reaping

/-!
# The list while blocks are freed

`SoundList hi live L` collects what the heap's invariant says of the block list `L` as data: it
tiles `[heapStart, hi)`, no two neighbours are free, and its blocks in use are the live allocations.
Freeing the payloads at `D` keeps it (`SoundList.reap`), also when `coalesce` finds other free
neighbours (`SoundList.of_joined`), and with its headers in memory it is the invariant
(`SoundList.heapInv`).
-/

namespace JarvisOS

open Foundations HeapOp Prog

variable {σ : Type} {B : Backing σ} {hi a : ℕ} {s : HeapState σ} {live : Set (ℕ × ℕ)}
  {L : List Block} {l : List Seg} {m : Mem}

/-! ## Blocks and segments -/

theorem map_seg_blocksFrom (a : ℕ) (l : List Seg) : (blocksFrom a l).map Block.seg = l := by
  induction l generalizing a with
  | nil => rfl
  | cons x l ih => rw [blocksFrom_cons, List.map_cons, ih]; rfl

theorem linkOf_blocksFrom (a : ℕ) (l : List Seg) : linkOf (blocksFrom a l) = linkTo a l 0 := by
  cases l <;> rfl

theorem linked_blocksFrom : Linked m (blocksFrom a l) ↔ Holds m a l 0 := by
  induction l generalizing a with
  | nil => exact Iff.rfl
  | cons x l ih =>
    rw [blocksFrom_cons, Linked, Holds, ih, linkOf_blocksFrom]
    exact Iff.rfl

theorem tiles_blocksFrom (a : ℕ) (l : List Seg) :
    Tiles (a + Seg.span headerSize l) a (blocksFrom a l) := by
  induction l generalizing a with
  | nil => rfl
  | cons x l ih =>
    refine ⟨rfl, ?_⟩
    have := ih (a + headerSize + x.size)
    rw [Seg.span_cons, show a + (headerSize + x.size + Seg.span headerSize l) =
      a + headerSize + x.size + Seg.span headerSize l by omega]
    exact this

namespace Tiles

/-- A list that tiles is laid out from its segments. -/
theorem eq_blocksFrom (h : Tiles hi a L) : L = blocksFrom a (L.map Block.seg) := by
  induction L generalizing a with
  | nil => rfl
  | cons b L ih =>
    obtain ⟨rfl, h⟩ := h
    rw [List.map_cons, blocksFrom_cons]
    exact congrArg (b :: ·) (ih h)

theorem span (h : Tiles hi a L) : a + Seg.span headerSize (L.map Block.seg) = hi := by
  induction L generalizing a with
  | nil => exact h
  | cons b L ih =>
    have := ih h.2
    rw [List.map_cons, Seg.span_cons, ← this, ← h.1]
    simp only [Block.stop, Block.seg]
    omega

theorem holds (h : Tiles hi a L) : Linked m L ↔ Holds m a (L.map Block.seg) 0 := by
  conv_lhs => rw [h.eq_blocksFrom]
  exact linked_blocksFrom

/-- Where a block lies. -/
theorem addr_eq {b : Block} {pre post : List Block} (h : Tiles hi a (pre ++ b :: post)) :
    b.addr = a + Seg.span headerSize (pre.map Block.seg) := by
  obtain ⟨e, hpre, hb, -⟩ := append_iff.1 h
  rw [hb, hpre.span]

/-- On a list that tiles, `coalesce` merges the segments. -/
theorem map_seg_joinedFrom {b : Block} (h : Tiles hi a (b :: L)) :
    (Block.joinedFrom b L).map Block.seg = Seg.mergeFrom headerSize b.seg (L.map Block.seg) := by
  induction L generalizing a b with
  | nil => rfl
  | cons c L ih =>
    have hiff : b.Joins c ↔ b.seg.free = true ∧ c.seg.free = true :=
      ⟨fun hj => ⟨hj.1, hj.2.1⟩, fun hj => ⟨hj.1, hj.2, h.2.1.symm⟩⟩
    by_cases hj : b.Joins c
    · have hf := hiff.1 hj
      rw [Block.joinedFrom_join hj, List.map_cons, Seg.mergeFrom_join headerSize hf.1 hf.2]
      exact ih ⟨h.1, by rw [hj.stop_join]; exact h.2.2⟩
    · rw [Block.joinedFrom_skip hj, List.map_cons, List.map_cons,
        Seg.mergeFrom_skip headerSize (fun hf => hj (hiff.2 hf)), ih h.2]

theorem map_seg_joined (h : Tiles hi a L) :
    (Block.joined L).map Block.seg = Seg.merge headerSize (L.map Block.seg) := by
  cases L with
  | nil => rfl
  | cons b L => exact map_seg_joinedFrom h

end Tiles

/-! ## Sound lists -/

/-- What the invariant of the heap says of its block list as data. -/
structure SoundList (hi : ℕ) (live : Set (ℕ × ℕ)) (L : List Block) : Prop where
  tiles : Tiles hi heapStart L
  ne_nil : L ≠ []
  sizes : ∀ b ∈ L, PayloadSize b.size
  merged : Seg.NoFreeNeighbours (L.map Block.seg)
  accounts : Accounts live (L.map Block.seg)

theorem HeapInv.sound (h : HeapInv ⟨s, live⟩ l) :
    SoundList s.brk live (blocksFrom heapStart l) ∧ Linked s.mem (blocksFrom heapStart l) := by
  obtain ⟨ht, ha⟩ := h
  have hmap := map_seg_blocksFrom heapStart l
  refine ⟨⟨ht.tiles ▸ tiles_blocksFrom heapStart l, ?_, fun b hb => ?_, hmap.symm ▸ ht.merged,
    hmap.symm ▸ ha⟩, linked_blocksFrom.2 ht.headers⟩
  · obtain ⟨x, l', e⟩ := List.exists_cons_of_ne_nil ht.ne_nil
    rw [e]
    exact List.cons_ne_nil _ _
  · have : b.seg ∈ l := hmap ▸ List.mem_map_of_mem hb
    exact ht.sizes _ this

/-- The heap's variables are those of a heap in use that ends at `hi`. -/
structure Framed (hi : ℕ) (s : HeapState σ) : Prop where
  ready : s.ready = 1
  head : s.head = heapStart
  page : pageSize ∣ hi
  ceiling : hi ≤ heapStart + heapMax

theorem Framed.hi_lt (h : Framed hi s) : hi < 2 ^ 32 := h.ceiling.trans_lt window_lt

theorem Tiled.framed (h : Tiled s l) : Framed s.brk s := ⟨h.ready, h.head, h.page, h.ceiling⟩

namespace SoundList

/-- **With its headers in memory**, a sound list is the heap's invariant. -/
theorem heapInv (h : SoundList hi live L) (hf : Framed hi s) (hbrk : s.brk = hi)
    (hl : Linked s.mem L) : HeapInv ⟨s, live⟩ (L.map Block.seg) := by
  refine ⟨⟨hf.ready, hf.head, (h.tiles.holds).1 hl, by simpa using h.ne_nil,
    h.tiles.span.trans hbrk.symm, fun x hx => ?_, h.merged, hbrk ▸ hf.page, hbrk ▸ hf.ceiling⟩,
    h.accounts⟩
  obtain ⟨b, hb, rfl⟩ := List.mem_map.1 hx
  exact h.sizes b hb

theorem linkOf_eq (h : SoundList hi live L) : linkOf L = heapStart := h.tiles.linkOf_eq h.ne_nil

theorem exists_last (h : SoundList hi live L) : ∃ init z, L = init ++ [z] :=
  ⟨L.dropLast, L.getLast h.ne_nil, (List.dropLast_append_getLast h.ne_nil).symm⟩

theorem exists_first (h : SoundList hi live L) : ∃ b M, L = b :: M ∧ b.addr = heapStart := by
  obtain ⟨b, M, rfl⟩ := List.exists_cons_of_ne_nil h.ne_nil
  exact ⟨b, M, rfl, h.linkOf_eq⟩

/-- The block of a live allocation. -/
theorem exists_block (h : SoundList hi live L) {p n : ℕ} (hp : (p, n) ∈ live) :
    ∃ b ∈ L, b.addr + headerSize = p ∧ b.free = false ∧ n ≤ b.size ∧ 0 < b.size := by
  obtain ⟨size, hle, hin⟩ := h.accounts.sized _ hp
  obtain ⟨pre, x, post, e, hx, hpx⟩ := Seg.exists_of_mem_inUse headerSize hin
  obtain ⟨pre', rest, rfl, rfl, hrest⟩ := List.map_eq_append_iff.1 e
  obtain ⟨b, post', rfl, rfl, rfl⟩ := List.map_eq_cons_iff.1 hrest
  obtain ⟨hb, rfl⟩ := Prod.mk.inj hpx
  have hmem : b ∈ pre' ++ b :: post' := List.mem_append_right _ List.mem_cons_self
  exact ⟨b, hmem, by rw [h.tiles.addr_eq]; exact hb.symm, hx, hle, (h.sizes b hmem).2⟩

/-- The allocation of a block in use. -/
theorem live_of_used (h : SoundList hi live L) {b : Block} (hb : b ∈ L) (hu : b.free = false) :
    ∃ n, (b.addr + headerSize, n) ∈ live := by
  obtain ⟨pre, post, rfl⟩ := List.append_of_mem hb
  refine h.accounts.owned (_, b.size) ?_
  rw [List.map_append, List.map_cons, Seg.inUse_append, Seg.inUse_cons_used headerSize hu,
    h.tiles.addr_eq]
  exact List.mem_append_right _ List.mem_cons_self

/-- Payloads of distinct live allocations are those of distinct blocks in use. -/
theorem stacks_of_live (h : SoundList hi live L) {D : List ℕ} (hD : ∀ d ∈ D, ∃ n, (d, n) ∈ live)
    (hnodup : D.Nodup) : Stacks D L := by
  refine ⟨fun d hd => ?_, hnodup⟩
  obtain ⟨n, hn⟩ := hD d hd
  obtain ⟨b, hb, e, hu, -, hpos⟩ := h.exists_block hn
  exact ⟨b, hb, e, hu, hpos⟩

/-- Coalescing makes a list sound that is so but for free neighbours. -/
theorem of_joined (ht : Tiles hi heapStart L) (hne : L ≠ []) (hsizes : ∀ b ∈ L, PayloadSize b.size)
    (ha : Accounts live (Seg.merge headerSize (L.map Block.seg))) :
    SoundList hi live (Block.joined L) := by
  have hmap := ht.map_seg_joined
  refine ⟨ht.joined, Block.joined_ne_nil hne, fun b hb => ?_, hmap ▸ Seg.noFreeNeighbours_merge _ _,
    hmap ▸ ha⟩
  have hb' : b.seg ∈ Seg.merge headerSize (L.map Block.seg) := hmap ▸ List.mem_map_of_mem hb
  refine Seg.forall_size_merge headerSize (P := PayloadSize) PayloadSize.join (fun y hy => ?_) _ hb'
  obtain ⟨c, hc, rfl⟩ := List.mem_map.1 hy
  exact hsizes c hc

/-- **Freeing a block.** -/
theorem freed (h : SoundList hi live L) (hlt : hi < 2 ^ 32) {d : Block} (hd : d ∈ L)
    (hused : d.free = false) :
    SoundList hi {b ∈ live | b.1 ≠ d.addr + headerSize}
      (Block.joined (Block.freeAt (d.addr + headerSize) L)) := by
  obtain ⟨pre, post, rfl⟩ := List.append_of_mem hd
  have hsplit := (h.tiles.placed le_rfl hlt).freeAt_eq
  refine of_joined (h.tiles.freeAt _) (Block.freeAt_ne_nil h.ne_nil) (fun b hb => ?_) ?_
  · obtain ⟨c, hc, -, e, -⟩ := Block.mem_freeAt hb
    exact e ▸ h.sizes c hc
  · rw [hsplit, List.map_append, List.map_cons, h.tiles.addr_eq]
    have := h.accounts
    rw [List.map_append, List.map_cons] at this
    exact this.release hused

/-- **Freeing several blocks.** -/
theorem reap (h : SoundList hi live L) (hlt : hi < 2 ^ 32) {D : List ℕ} (hD : Stacks D L) :
    SoundList hi {b ∈ live | b.1 ∉ D} (Block.reap D L) := by
  induction D generalizing L live with
  | nil => simpa [Block.reap] using h
  | cons d D ih =>
    obtain ⟨b, hb, rfl, hused, -⟩ := hD.used d List.mem_cons_self
    have := ih (h.freed hlt hb hused) hD.tail
    have e : {c ∈ {c ∈ live | c.1 ≠ b.addr + headerSize} | c.1 ∉ D} =
        {c ∈ live | c.1 ∉ (b.addr + headerSize) :: D} := by
      ext c
      simp only [Set.mem_ofPred_eq, List.mem_cons, not_or, and_assoc]
    rw [e] at this
    exact this

end SoundList

end JarvisOS
