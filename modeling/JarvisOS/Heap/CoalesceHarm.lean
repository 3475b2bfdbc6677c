import JarvisOS.Heap.LostBlocks
import JarvisOS.Heap.Safe

/-!
# Where an interrupt harms `coalesce`

`coalesce` is about to join two free blocks, and the interrupt frees other blocks and coalesces
itself. If the first of the two stays in the list, the interrupt has joined them already: what the
call then swallows is the block behind them, or nothing, in which case it counts the size of the
second twice. If the first leaves the list, the call has entered the joint size in a block whose
header is dead, and the second remains in the list inside the block that covers both.
-/

namespace JarvisOS

open Foundations HeapOp Prog

variable {σ : Type} {B : Backing σ} {tick : HeapState σ → Option (HeapState σ)} {hi a fuel : ℕ}
  {s t u : HeapState σ} {D : List ℕ} {pre post L : List Block} {b c p : Block}
  {Q : Unit → HeapState σ → Prop}

/-- The link of the null pointer. -/
theorem returns_getNext_null {α : Type} {f : ℕ → HeapM α} {Q : α → HeapState σ → Prop} :
    Returns (heapAct B) (getNext 0 >>= f) s Q ↔
      Returns (heapAct B) (f (s.mem.read32 8)) s Q := by
  rw [getNext, perform_bind, returns_act]
  exact Iff.rfl

/-- What is left of an iteration of `coalesce` at a block that is linked to none, where the null
pointer's link is null: `size` is counted, and the loop ends. -/
theorem returns_swallow_null {x : Seg} {y size : ℕ} (hroom : Room heapStart hi y)
    (hx : IsHeader s.mem y x 0) (hsize : x.size + (headerSize + size) < 2 ^ 32)
    (hnull : s.mem.read32 8 = 0) :
    Returns (heapAct B)
      (getSize y >>= fun old =>
        setSize y (u32 (old + u32 (headerSize + size))) >>= fun _ =>
        getNext y >>= fun next => getNext next >>= fun nextNext =>
        setNext y nextNext >>= fun _ => coalesceLoop (fuel + 1) y) s Q ↔
      Q () (s.setMem
        ((s.mem.write32 (y + 4) (x.size + (headerSize + size))).write32 (y + 8) 0)) := by
  have hlow := hroom.1
  have hword : u32 (x.size + u32 (headerSize + size)) = x.size + (headerSize + size) := by
    rw [u32_of_lt (n := headerSize + size) (by omega)]
    exact u32_of_lt hsize
  have hx₁ := hx.setSize hsize
  have hzero : (s.mem.write32 (y + 4) (x.size + (headerSize + size))).read32 8 = 0 := by
    refine (Mem.read32_congr fun z h1 h2 => ?_).trans hnull
    refine Mem.write32_apply_of_disjoint _ _ ?_
    simp only [heapStart] at hlow
    omega
  rw [returns_getSize hroom hx, hword, returns_setSize hroom, returns_getNext hroom hx₁,
    returns_getNext_null]
  simp only [HeapState.setMem_mem, hzero]
  rw [returns_setNext hroom, coalesceLoop, if_neg (by simp only [heapStart] at hlow; omega),
    returns_getNext hroom (hx₁.setNext (v := 0) (by decide)), if_pos rfl]
  exact returns_ret

/-- The last block counts `k` more bytes. -/
theorem Linked.count_last {m : Mem} {A : List Block} {q : Block} {k : ℕ} (h : Linked m (A ++ [q]))
    (hA : ∀ b ∈ A, b.addr + headerSize ≤ q.addr) (hq : q.free = true) (hk : q.size + k < 2 ^ 32) :
    Linked ((m.write32 (q.addr + 4) (q.size + k)).write32 (q.addr + 8) 0)
      (A ++ [⟨q.addr, q.size + k, true⟩]) := by
  have hhead := (h.of_append.1.setSize hk).setNext (v := 0) (by decide)
  rw [show q.seg.free = true from hq] at hhead
  refine h.replace rfl (fun b hb y h1 h2 => ?_) ⟨hhead, trivial⟩
  have := hA b hb
  exact (Mem.write32_apply_of_disjoint _ _ (by omega)).trans
    (Mem.write32_apply_of_disjoint _ _ (by omega))

theorem Tiles.count_last {A : List Block} {q : Block} (h : Tiles hi a (A ++ [q])) (k : ℕ) :
    Tiles (hi + k) a (A ++ [⟨q.addr, q.size + k, true⟩]) := by
  obtain ⟨e, hA, hq, hend⟩ := Tiles.append_iff.1 h
  refine Tiles.append_iff.2 ⟨e, hA, hq, ?_⟩
  have hstop : q.stop = hi := hend
  change q.addr + headerSize + (q.size + k) = hi + k
  rw [← hstop, Block.stop]
  omega

/-! ## As far as the two blocks -/

/-- One iteration in which the interrupt has not come. -/
theorem interrupted_coalesceLoop_at (hp : Placed heapStart hi (b :: c :: L))
    (hl : Linked s.mem (b :: c :: L))
    (hI : Interrupted (heapAct B) tick (coalesceLoop (fuel + 1) b.addr) s Q) :
    Interrupted (heapAct B) tick
      (if b.Joins c then swallow b.addr >>= fun _ => coalesceLoop fuel b.addr
        else coalesceLoop fuel c.addr) s Q := by
  obtain ⟨hb, hc, -⟩ := hl
  rw [coalesceLoop, if_neg hp.addr_ne_zero] at hI
  replace hI := ((interrupted_getNext hp.room hb).1 hI).2
  rw [linkOf_cons, if_neg hp.tail.addr_ne_zero] at hI
  replace hI := ((interrupted_getSize hp.room hb).1 hI).2
  have hstop : u32 (u32 (b.addr + headerSize) + b.seg.size) = b.stop := hp.stop_eq
  rw [hstop] at hI
  have hrun := (runs_mergeable_at (B := B) (e := b.stop) hp.room hp.tail.room hb hc).1
  replace hI := hI.of_bind_run hrun
  have hiff : (b.seg.free && c.seg.free && decide (b.stop = c.addr)) = true ↔ b.Joins c := by
    simp [Block.Joins, Block.seg, and_assoc]
  by_cases hj : b.Joins c
  · rw [if_pos (hiff.2 hj)] at hI
    rw [if_pos hj]
    exact hI
  · rw [if_neg fun h => hj (hiff.1 h)] at hI
    rw [if_neg hj]
    exact ((interrupted_getNext hp.room hb).1 hI).2

/-- The loop comes to the first two free neighbours. -/
theorem Tiles.interrupted_coalesceLoop (ht : Tiles hi a (pre ++ p :: c :: post))
    (ha : heapStart ≤ a) (hlt : hi < 2 ^ 32) (hl : Linked s.mem (pre ++ p :: c :: post))
    (hapart : Seg.NoFreeNeighbours ((pre ++ [p]).map Block.seg)) (hpf : p.free = true)
    (hcf : c.free = true) (hfuel : hi < a + headerSize * fuel)
    (hI : Interrupted (heapAct B) tick (coalesceLoop fuel a) s Q) :
    ∃ fuel', hi < p.addr + headerSize * (fuel' + 1) ∧ Interrupted (heapAct B) tick
      (swallow p.addr >>= fun _ => coalesceLoop fuel' p.addr) s Q := by
  induction pre generalizing a fuel with
  | nil =>
    obtain ⟨fuel, rfl⟩ := exists_fuel ht.le hfuel
    have hp : Placed heapStart hi (p :: c :: post) := ht.placed ha hlt
    obtain ⟨rfl, hc, -⟩ := ht
    refine ⟨fuel, hfuel, ?_⟩
    have := interrupted_coalesceLoop_at hp hl hI
    rwa [if_pos ⟨hpf, hcf, hc.symm⟩] at this
  | cons b pre ih =>
    obtain ⟨d, M, e⟩ : ∃ d M, pre ++ p :: c :: post = d :: M := by
      cases pre with
      | nil => exact ⟨p, _, rfl⟩
      | cons d pre => exact ⟨d, _, rfl⟩
    have hp := ht.placed ha hlt
    obtain ⟨fuel, rfl⟩ := exists_fuel ht.le hfuel
    obtain ⟨rfl, hrest⟩ := ht
    change Tiles hi b.stop (pre ++ p :: c :: post) at hrest
    have hnot : ¬ b.Joins d := fun hj => by
      obtain ⟨d', M', e'⟩ : ∃ d' M', pre ++ [p] = d' :: M' ∧ d' = d := by
        cases pre with
        | nil => exact ⟨p, [], rfl, (List.cons.inj e).1⟩
        | cons d' pre => exact ⟨d', _, rfl, (List.cons.inj e).1⟩
      rw [List.cons_append, e'.1, e'.2] at hapart
      exact (List.isChain_cons_cons.1 hapart).1 ⟨hj.1, hj.2.1⟩
    have hb : b.addr + headerSize ≤ b.stop := Nat.le_add_right _ _
    rw [List.cons_append, e] at hl hp
    have hnext := interrupted_coalesceLoop_at hp hl hI
    have hd : d.addr = b.stop := by
      rw [e] at hrest
      exact hrest.1
    rw [if_neg hnot, hd] at hnext
    refine ih hrest (ha.trans ?_) (e ▸ hl.2) hapart.tail (Block.fuel_stop hfuel) hnext
    exact (Nat.le_add_right _ _).trans hb

/-- `coalesce` finds a list that tiles, with the first free neighbours at `p` and `c`. -/
structure Merging (hi : ℕ) (D : List ℕ) (pre : List Block) (p c : Block) (post : List Block)
    (s : HeapState σ) : Prop where
  framed : Framed hi s
  brk : hi ≤ s.brk
  tiles : Tiles hi heapStart (pre ++ p :: c :: post)
  linked : Linked s.mem (pre ++ p :: c :: post)
  used : Stacks D (pre ++ p :: c :: post)
  apart : Seg.NoFreeNeighbours ((pre ++ [p]).map Block.seg)
  first : p.free = true
  second : c.free = true

namespace Merging

theorem placed (h : Merging hi D pre p c post s) : Placed heapStart hi (pre ++ p :: c :: post) :=
  h.tiles.placed le_rfl h.framed.hi_lt

theorem stop_eq (h : Merging hi D pre p c post s) : p.stop = c.addr := by
  obtain ⟨e, -, -, hc, -⟩ := Tiles.append_iff.1 h.tiles
  exact hc.symm

theorem joins (h : Merging hi D pre p c post s) : p.Joins c := ⟨h.first, h.second, h.stop_eq⟩

theorem placed_at (h : Merging hi D pre p c post s) : Placed heapStart hi (p :: c :: post) :=
  h.placed.of_append

theorem linked_at (h : Merging hi D pre p c post s) : Linked s.mem (p :: c :: post) :=
  h.linked.of_append

/-- The joint size is a word. -/
theorem size_lt (h : Merging hi D pre p c post s) : p.size + (headerSize + c.size) < 2 ^ 26 := by
  have h1 := h.placed_at.lower p List.mem_cons_self
  have h2 := h.placed_at.tail.upper c List.mem_cons_self
  have h3 := h.framed.ceiling
  have h4 := h.stop_eq
  unfold Block.stop at h2 h4
  simp only [heapStart, heapMax, headerSize] at *
  omega

/-- The loop comes to the two blocks. -/
theorem interrupted_swallow (h : Merging hi D pre p c post s)
    (hI : Interrupted (heapAct B) tick coalesce s Q) :
    ∃ fuel, hi < p.addr + headerSize * (fuel + 1) ∧ Interrupted (heapAct B) tick
      (swallow p.addr >>= fun _ => coalesceLoop fuel p.addr) s Q := by
  rw [coalesce] at hI
  replace hI := (interrupted_getHead.1 hI).2
  rw [h.framed.head] at hI
  refine h.tiles.interrupted_coalesceLoop le_rfl h.framed.hi_lt h.linked h.apart h.first h.second
    ?_ hI
  exact h.framed.ceiling.trans_lt (by decide)

/-- The interrupt comes before the call begins to join the blocks. -/
theorem interrupted_size (h : Merging hi D pre p c post s)
    (hI : Interrupted (heapAct B) tick (swallow p.addr >>= fun _ => coalesceLoop fuel p.addr) s Q) :
    Interrupted (heapAct B) tick
      (getSize p.addr >>= fun size =>
        setSize p.addr (u32 (size + u32 (headerSize + c.size))) >>= fun _ =>
        getNext p.addr >>= fun next => getNext next >>= fun nextNext =>
        setNext p.addr nextNext >>= fun _ => coalesceLoop fuel p.addr) s Q := by
  obtain ⟨hp, hc, -⟩ := h.linked_at
  have hnext := ((interrupted_getNext h.placed_at.room hp).1 hI).2
  exact ((interrupted_getSize h.placed_at.tail.room hc).1 hnext).2

/-! ## The first block stays in the list -/

/-- The list after the interrupt, if what stands before the first of the blocks is in use then. -/
theorem exists_tick (h : Merging hi D pre p c post s)
    (hpre : ∀ w ∈ pre.getLast?, Block.Kept D w) :
    ∃ q R m, reaping B D s = some (s.setMem m) ∧ Block.reap D (p :: c :: post) = q :: R ∧
      q.addr = p.addr ∧ q.free = true ∧ Linked m (Block.reap D pre ++ q :: R) ∧
      Tiles hi heapStart (Block.reap D pre ++ q :: R) ∧
      HeadersOnly ((pre ++ p :: c :: post).map Block.addr) s.mem m := by
  obtain ⟨m, hrun, hl, hreaped⟩ := reaping_eq (B := B)
    (h.framed.head.trans (h.tiles.linkOf_eq (by simp)).symm) h.linked h.placed h.framed.ceiling
    h.brk h.used
  have hwall : Walled D pre [] := ⟨hpre, fun _ hx => by cases hx⟩
  have hsplit := hwall.reap (p :: c :: post)
  rw [List.append_nil, Block.reap_nil, List.append_nil] at hsplit
  have hlink := linkOf_reap D (p :: c :: post)
  obtain ⟨q, R, e⟩ : ∃ q R, Block.reap D (p :: c :: post) = q :: R := by
    refine List.exists_cons_of_ne_nil fun e => ?_
    rw [e] at hlink
    exact h.placed_at.addr_ne_zero hlink.symm
  have ht := h.tiles.reap D
  rw [hsplit, e] at hl ht
  have hq : q.addr = p.addr := by
    rw [e] at hlink
    exact hlink
  refine ⟨q, R, m, hrun, e, hq, ?_, hl, ht, hreaped.frame h.used⟩
  obtain ⟨x, hx, hxq, hf⟩ := Block.addr_of_mem_reap
    (show q ∈ Block.reap D (p :: c :: post) from e ▸ List.mem_cons_self)
  exact hf (h.placed_at.eq_of_addr hx List.mem_cons_self (hxq.trans hq) ▸ h.first)

/-- The null pointer's link is not in the heap. -/
theorem null_of_tick (h : Merging hi D pre p c post s) {m : Mem}
    (hm : HeadersOnly ((pre ++ p :: c :: post).map Block.addr) s.mem m) :
    m.read32 8 = s.mem.read32 8 := by
  refine Mem.read32_congr fun y h1 h2 => hm y fun a ha => Or.inl ?_
  obtain ⟨b, hb, rfl⟩ := List.mem_map.1 ha
  have := h.placed.lower b hb
  simp only [heapStart] at this
  omega

/-- **The link that is followed is null**: nothing stands behind the two blocks, and the size of the
second is counted twice. -/
theorem exists_null (h : Merging hi D pre p c post s) (hpre : ∀ w ∈ pre.getLast?, Block.Kept D w)
    {q : Block} (hq : Block.reap D (p :: c :: post) = [q]) (hnull : s.mem.read32 8 = 0)
    (hI : Interrupted (heapAct B) (reaping B D) coalesce s Q) :
    ∃ t, Q () t ∧ t = s.setMem t.mem ∧
      Linked t.mem (Block.reap D pre ++ [⟨p.addr, q.size + (headerSize + c.size), true⟩]) ∧
      Tiles (hi + (headerSize + c.size)) heapStart
        (Block.reap D pre ++ [⟨p.addr, q.size + (headerSize + c.size), true⟩]) := by
  obtain ⟨fuel, hfuel, hswallow⟩ := h.interrupted_swallow hI
  obtain ⟨q', R, m, hrun, e, hqa, hqf, hl, ht, hframe⟩ := h.exists_tick (B := B) hpre
  obtain ⟨rfl, rfl⟩ := List.cons.inj (hq.symm.trans e)
  obtain ⟨u, hu, hrest⟩ := (h.interrupted_size hswallow).first
  obtain rfl := Option.some.inj (hrun.symm.trans hu)
  have hroom := h.placed_at.room
  have hsize := h.size_lt
  have hend : q.stop ≤ hi := (ht.bounds (List.mem_append_right _ List.mem_cons_self)).2
  have hX : q.size + (headerSize + c.size) < 2 ^ 32 := by
    have := h.framed.ceiling
    unfold Block.stop at hend
    simp only [heapStart, heapMax, headerSize] at *
    omega
  obtain ⟨fuel, rfl⟩ := exists_fuel (h.stop_eq ▸ h.placed_at.tail.room.le) (Block.fuel_stop hfuel)
  have hhead := hl.of_append.1
  rw [hqa] at hhead
  have hzero := (h.null_of_tick hframe).trans hnull
  rw [returns_swallow_null (x := q.seg) hroom hhead hX hzero] at hrest
  rw [← hqa] at hrest ⊢
  exact ⟨_, hrest, rfl, hl.count_last ht.before_block hqf hX, ht.count_last _⟩

/-- What stands behind the two blocks once others have been freed is in use. -/
theorem used_behind (h : Merging hi D pre p c post s) (hD : D ≠ []) {q f : Block} {R : List Block}
    (hq : Block.reap D (p :: c :: post) = q :: f :: R) (hqf : q.free = true) :
    f.free = false ∧ f ∈ pre ++ p :: c :: post ∧ f.addr + headerSize ∉ D := by
  obtain ⟨d, -, hmid⟩ := Tiles.append_iff.1 h.tiles
  have hmerged := hmid.reap_merged hD
  rw [hq] at hmerged
  have hused : f.free = false := Bool.eq_false_of_not_eq_true fun hff =>
    (List.isChain_cons_cons.1 hmerged).1 ⟨hqf, hff⟩
  have hmem : f ∈ Block.reap D (p :: c :: post) :=
    hq ▸ List.mem_cons_of_mem _ List.mem_cons_self
  obtain ⟨hfL, hfD⟩ := Block.used_of_mem_reap hmem hused
  exact ⟨hused, List.mem_append_right _ hfL, hfD⟩

/-- **The block behind them is swallowed**, though it is in use. -/
theorem exists_swallowed (h : Merging hi D pre p c post s) (hD : D ≠ [])
    (hpre : ∀ w ∈ pre.getLast?, Block.Kept D w) {q f : Block} {R : List Block}
    (hq : Block.reap D (p :: c :: post) = q :: f :: R)
    (hI : Interrupted (heapAct B) (reaping B D) coalesce s Q) :
    ∃ t M, Q () t ∧ t = s.setMem t.mem ∧ Linked t.mem M ∧ Tiles hi heapStart M ∧
      f ∈ pre ++ p :: c :: post ∧
      f.free = false ∧ f.addr + headerSize ∉ D ∧ ∀ b ∈ M, b.addr ≠ f.addr := by
  have hH := headerSize_eq
  obtain ⟨fuel, hfuel, hswallow⟩ := h.interrupted_swallow hI
  obtain ⟨q', R', m, hrun, e, hqa, hqf, hl, ht, -⟩ := h.exists_tick (B := B) hpre
  obtain ⟨rfl, rfl⟩ := List.cons.inj (hq.symm.trans e)
  obtain ⟨u, hu, hrest⟩ := hswallow.first
  obtain rfl := Option.some.inj (hrun.symm.trans hu)
  obtain ⟨hused, hin, hfD⟩ := h.used_behind hD hq hqf
  -- the call swallows the block and goes on
  have hpl := ht.placed le_rfl h.framed.hi_lt
  have hplq : Placed heapStart hi (q :: f :: R) := hpl.of_append
  obtain ⟨a, hpret, hqt, hft, hRt⟩ := Tiles.append_iff.1 ht
  have hj : q.stop = f.addr := hft.symm
  have hswallowed := (runs_swallow_block (B := B) (s := s.setMem m) hplq hl.of_append hj).1
  rw [hqa] at hswallowed
  replace hrest := hrest.of_bind_run hswallowed
  rw [← hqa] at hrest
  simp only [HeapState.setMem_mem, HeapState.setMem_setMem] at hrest
  have htq : Tiles hi q.addr (q.join f :: R) := ⟨rfl, by rw [Block.stop_join hj]; exact hRt⟩
  have hlen := htq.length_le
  obtain ⟨m', hloop, hm', hlinks⟩ := runs_coalesceLoop_blocks (B := B) (s := s.setMem _)
    (show _ < fuel by
      simp only [List.length_cons, headerSize] at hlen hfuel
      omega) (Linked.swallow hplq hl.of_append hqf hj) (hplq.join hj)
  obtain ⟨_, t, hrun', hQ⟩ := hrest
  obtain ⟨-, rfl⟩ := Prod.mk.inj (Option.some.inj (hrun'.symm.trans hloop.1))
  -- no block is where the swallowed one has been
  have hsub : ∀ b ∈ Block.joinedFrom (q.join f) R, b.addr = q.addr ∨ f.addr < b.addr := by
    intro b hb
    obtain ⟨d, hd, hdb, -⟩ := Block.addr_of_mem_joinedFrom hb
    rcases List.mem_cons.1 hd with rfl | hd
    · exact Or.inl hdb.symm
    · have := (List.pairwise_cons.1 hplq.tail.apart).1 d hd
      exact Or.inr (by omega)
  have hfq : q.addr + headerSize ≤ f.addr := hj ▸ Nat.le_add_right _ _
  have hbefore := ht.before_block
  obtain ⟨q', R', e', hq', -⟩ := Block.joinedFrom_eq_cons (q.join f) R
  refine ⟨_, Block.reap D pre ++ Block.joinedFrom (q.join f) R, hQ, rfl, ?_,
    Tiles.append_iff.2 ⟨a, hpret, hqt ▸ htq.joinedFrom⟩, hin, hused, hfD, fun b hb => ?_⟩
  · rw [e']
    refine hl.replace hq' (fun b hb y h1 h2 => ?_) (e' ▸ hm')
    have hbq := hbefore b hb
    refine (hlinks y fun x hx => ?_).trans ?_
    · obtain ⟨r, hr, rfl⟩ := List.mem_map.1 hx
      have := hsub r hr
      omega
    · exact (Mem.write32_apply_of_disjoint _ _ (by omega)).trans
        (Mem.write32_apply_of_disjoint _ _ (by omega))
  · rcases List.mem_append.1 hb with hb | hb
    · have := hbefore b hb
      omega
    · have := hsub b hb
      omega

/-! ## The first block leaves the list -/

/-- The list with the joint size in the header of the first block, but the second still in it. -/
theorem linked_sized (h : Merging hi D pre p c post s) :
    Linked (s.mem.write32 (p.addr + 4) (p.size + (headerSize + c.size)))
      (pre ++ p.join c :: c :: post) := by
  have hsize := h.size_lt
  have hp := h.placed
  obtain ⟨-, hpost, hcross⟩ := List.pairwise_append.1 hp.apart
  have hapart := (List.pairwise_cons.1 hpost).1
  obtain ⟨hhp, hrest⟩ := h.linked_at
  have hhead := hhp.setSize (v := p.size + (headerSize + c.size)) (by omega)
  rw [show p.seg.free = true from h.first] at hhead
  have hH := headerSize_eq
  refine h.linked.replace rfl (fun b hb y h1 h2 => ?_) ⟨hhead, ?_⟩
  · have := hcross b hb p List.mem_cons_self
    exact Mem.write32_apply_of_disjoint _ _ (by omega)
  · refine hrest.congr fun b hb y h1 _ => ?_
    have := hapart b hb
    exact Mem.write32_apply_of_disjoint _ _ (by omega)

theorem placed_sized (h : Merging hi D pre p c post s) :
    Placed heapStart hi (pre ++ p.join c :: c :: post) := by
  have hp := h.placed
  obtain ⟨hpre, hpost, hcross⟩ := List.pairwise_append.1 hp.apart
  refine ⟨hp.pos, hp.hi_lt, fun b hb => ?_, fun b hb => ?_, ?_⟩
  · rcases List.mem_append.1 hb with hb | hb
    · exact hp.lower b (List.mem_append_left _ hb)
    · rcases List.mem_cons.1 hb with rfl | hb
      · exact h.placed_at.lower p List.mem_cons_self
      · exact h.placed_at.lower b (List.mem_cons_of_mem p hb)
  · rcases List.mem_append.1 hb with hb | hb
    · exact hp.upper b (List.mem_append_left _ hb)
    · rcases List.mem_cons.1 hb with rfl | hb
      · rw [h.joins.stop_join]
        exact h.placed_at.tail.upper c List.mem_cons_self
      · exact h.placed_at.upper b (List.mem_cons_of_mem p hb)
  · refine List.pairwise_append.2 ⟨hpre, List.pairwise_cons.2 ?_, fun b hb d hd => ?_⟩
    · exact List.pairwise_cons.1 hpost
    · rcases List.mem_cons.1 hd with rfl | hd
      · exact hcross b hb p List.mem_cons_self
      · exact hcross b hb d (List.mem_cons_of_mem p hd)

theorem used_sized (h : Merging hi D pre p c post s) :
    Stacks D (pre ++ p.join c :: c :: post) := by
  refine ⟨fun d hd => ?_, h.used.nodup⟩
  obtain ⟨b, hb, hbd, hu, hpos⟩ := h.used.used d hd
  refine ⟨b, ?_, hbd, hu, hpos⟩
  rcases List.mem_append.1 hb with hb | hb
  · exact List.mem_append_left _ hb
  · rcases List.mem_cons.1 hb with rfl | hb
    · rw [h.first] at hu
      cases hu
    · exact List.mem_append_right _ (List.mem_cons_of_mem _ hb)

theorem tiles_sized (h : Merging hi D pre p c post s) :
    Tiles c.stop heapStart (pre ++ [p.join c]) := by
  obtain ⟨e, hpre, hp, -⟩ := Tiles.append_iff.1 h.tiles
  exact Tiles.append_iff.2 ⟨e, hpre, hp, h.joins.stop_join⟩

/-- The call as far as the joint size. -/
theorem interrupted_sized (h : Merging hi D pre p c post s)
    (hI : Interrupted (heapAct B) tick (swallow p.addr >>= fun _ => coalesceLoop fuel p.addr) s Q) :
    Interrupted (heapAct B) tick
      (getNext p.addr >>= fun next => getNext next >>= fun nextNext =>
        setNext p.addr nextNext >>= fun _ => coalesceLoop fuel p.addr)
      (s.setMem (s.mem.write32 (p.addr + 4) (p.size + (headerSize + c.size)))) Q := by
  have hroom := h.placed_at.room
  have hsize := h.size_lt
  have hsized := ((interrupted_getSize hroom h.linked_at.1).1 (h.interrupted_size hI)).2
  have hword : u32 (p.seg.size + u32 (headerSize + c.size)) = p.size + (headerSize + c.size) := by
    rw [u32_of_lt (n := headerSize + c.size) (by omega)]
    exact u32_of_lt (by change p.size + (headerSize + c.size) < _; omega)
  rw [hword] at hsized
  exact ((interrupted_setSize hroom).1 hsized).2

end Merging

/-- The interrupt has joined `p`, with the joint size in its header, to a block in front of it: `c`
remains in the list, inside the block that covers both. -/
structure Overlapped (hi : ℕ) (p c : Block) (A : List Block) (g c' : Block) (C : List Block)
    (m : Mem) : Prop where
  linked : Linked m (A ++ g :: c' :: C)
  link : linkOf (A ++ g :: c' :: C) = heapStart
  pos : ∀ b ∈ A ++ g :: c' :: C, b.addr ≠ 0
  stop : g.stop = c.stop
  addr : c'.addr = c.addr
  tiles : Tiles hi c.addr (c' :: C)
  before : ∀ b ∈ A ++ [g], b.addr + headerSize ≤ p.addr
  header : IsHeader m p.addr (p.join c).seg c.addr

/-- A list in which blocks overlap is not safe. -/
theorem Overlapped.not_safe {A C : List Block} {g c' : Block} {m : Mem} {live : Set (ℕ × ℕ)}
    (h : Overlapped hi p c A g c' C m) (hhead : t.head = heapStart)
    (hm : ∀ b ∈ A ++ [g], ∀ y, b.addr ≤ y → y < b.addr + headerSize → t.mem y = m y) :
    ¬ HeapSafe ⟨t, live⟩ := by
  intro hsafe
  have hstop := hsafe.stop_of_linked h.linked h.pos hm (hhead.trans h.link.symm)
  have hcstop := h.stop.symm.trans (hstop.trans h.addr)
  have hH := headerSize_eq
  unfold Block.stop at hcstop
  omega

namespace Merging

/-- The first block is not in the list any more when the one in front of it has been freed. -/
theorem before_of_freed (h : Merging hi D pre p c post s) {w : Block} (hw : w ∈ pre.getLast?)
    (hwD : w.addr + headerSize ∈ D) :
    ∀ b ∈ Block.reap D (pre ++ [p.join c]), b.addr + headerSize ≤ p.addr := by
  intro b hb
  obtain ⟨pre', hpre'⟩ := List.getLast?_eq_some_iff.1 hw
  have hne : b.addr ≠ p.addr := by
    have htw := h.tiles_sized
    rw [hpre', List.append_assoc, List.singleton_append] at htw hb
    exact htw.lost_of_freed (List.ne_nil_of_mem hwD) (Or.inr hwD) rfl b hb
  obtain ⟨d, hd, hdb, -⟩ := Block.addr_of_mem_reap hb
  rcases List.mem_append.1 hd with hd | hd
  · have := h.tiles.before_block d hd
    omega
  · rw [List.mem_singleton.1 hd, Block.join_addr] at hdb
    exact absurd hdb.symm hne

/-- **The interrupt at the joint size** leaves blocks that overlap. -/
theorem exists_overlapped (h : Merging hi D pre p c post s) {w : Block} (hw : w ∈ pre.getLast?)
    (hwD : w.addr + headerSize ∈ D) :
    ∃ A g c' C m, reaping B D
        (s.setMem (s.mem.write32 (p.addr + 4) (p.size + (headerSize + c.size)))) =
          some (s.setMem m) ∧
      Overlapped hi p c A g c' C m := by
  have hH := headerSize_eq
  have hlink : linkOf (pre ++ p.join c :: c :: post) = heapStart := by
    have ht := h.tiles
    cases pre with
    | nil => exact ht.1
    | cons b pre => exact ht.1
  set m₀ := s.mem.write32 (p.addr + 4) (p.size + (headerSize + c.size)) with hm₀
  obtain ⟨m, hrun, hl, hreaped⟩ := reaping_eq (B := B) (s := s.setMem m₀)
    (hlink ▸ h.framed.head) h.linked_sized h.placed_sized h.framed.ceiling h.brk h.used_sized
  -- the joint block ends behind the start of the second, so that freeing does not cross over
  have hgap : ∀ d ∈ (c :: post).head?, d.addr ≠ c.stop := by
    intro d hd
    obtain rfl := Option.some.inj hd
    unfold Block.stop
    omega
  have hsplit := h.tiles_sized.reap_append (D := D) hgap
  rw [List.append_assoc, List.singleton_append] at hsplit
  have hlinkC := linkOf_reap D (c :: post)
  obtain ⟨c', C, eC⟩ : ∃ c' C, Block.reap D (c :: post) = c' :: C := by
    refine List.exists_cons_of_ne_nil fun e => ?_
    rw [e] at hlinkC
    exact h.placed_at.tail.addr_ne_zero hlinkC.symm
  obtain ⟨A, g, eA, hgstop⟩ := (h.tiles_sized.reap D).exists_last (by
    have := h.placed_at.room.1
    have := h.stop_eq
    unfold Block.stop at *
    omega)
  have hbefore := h.before_of_freed hw hwD
  have hheader := hreaped.header h.linked_sized h.placed_sized h.tiles_sized hgap h.used_sized rfl
  rw [eC] at hlinkC
  rw [eA] at hbefore
  rw [eC, eA, List.append_assoc, List.singleton_append] at hsplit
  rw [hsplit] at hl
  refine ⟨A, g, c', C, m, hrun, hl, ?_, fun b hb => ?_, hgstop, hlinkC, ?_, hbefore, hheader⟩
  · rw [← hsplit, linkOf_reap, hlink]
  · rw [← hsplit] at hb
    obtain ⟨d, hd, hdb, -⟩ := Block.addr_of_mem_reap hb
    have := h.placed_sized.lower d hd
    simp only [heapStart] at this
    omega
  · obtain ⟨e, -, hpt, hct⟩ := Tiles.append_iff.1 h.tiles
    rw [← eC, hct.1]
    exact hct.reap D

/-- The dead header of the first block, with the link behind the second one. -/
theorem linked_dead (h : Merging hi D pre p c post s) {A C : List Block} {g c' : Block} {m : Mem}
    (ho : Overlapped hi p c A g c' C m) :
    Linked (m.write32 (p.addr + 8) (linkOf C)) (p.join c :: C) ∧
      Placed heapStart hi (p.join c :: C) := by
  have hroom := h.placed_at.room
  have hplC := ho.tiles.placed h.placed_at.tail.room.1 h.framed.hi_lt
  have hps : p.addr + headerSize ≤ p.stop := Nat.le_add_right _ _
  have hpC : ∀ b ∈ C, p.stop ≤ b.addr := by
    intro b hb
    have := (List.pairwise_cons.1 hplC.apart).1 b hb
    have := h.stop_eq
    have := ho.addr
    omega
  refine ⟨⟨ho.header.setNext hplC.tail.linkOf_lt, ?_⟩, hplC.pos, hplC.hi_lt,
    List.forall_mem_cons.2 ⟨hroom.1, hplC.tail.lower⟩,
    List.forall_mem_cons.2 ⟨?_, hplC.tail.upper⟩,
    List.pairwise_cons.2 ⟨fun b hb => hps.trans (hpC b hb), (List.pairwise_cons.1 hplC.apart).2⟩⟩
  · refine ho.linked.of_append.2.2.congr fun b hb y h1 _ => ?_
    have := hpC b hb
    exact Mem.write32_apply_of_disjoint _ _ (by rw [headerSize_eq] at hps; omega)
  · rw [h.joins.stop_join]
    exact h.placed_at.tail.upper c List.mem_cons_self

/-- **The joint size comes into a header that has left the list.** The interrupt comes when the size
has been entered; it joins the block to the one in front of it, and the second of the two stays in
the list inside the block that covers both. -/
theorem exists_stale (h : Merging hi D pre p c post s) {w : Block} (hw : w ∈ pre.getLast?)
    (hwD : w.addr + headerSize ∈ D) (hI : Interrupted (heapAct B) (reaping B D) coalesce s Q) :
    ∃ t, Q () t ∧ ∀ live, ¬ HeapSafe ⟨t, live⟩ := by
  obtain ⟨fuel, hfuel, hswallow⟩ := h.interrupted_swallow hI
  obtain ⟨A, g, c', C, m, hrun, ho⟩ := h.exists_overlapped (B := B) hw hwD
  obtain ⟨u, hu, hrest⟩ := (h.interrupted_sized hswallow).first
  obtain rfl := Option.some.inj (hrun.symm.trans hu)
  -- the call enters the link behind the second block in the dead header, and goes on from there
  have hhc' := ho.linked.of_append.2.1
  rw [ho.addr] at hhc'
  rw [returns_getNext h.placed_at.room ho.header, returns_getNext h.placed_at.tail.room hhc',
    returns_setNext h.placed_at.room] at hrest
  simp only [HeapState.setMem_mem, HeapState.setMem_setMem] at hrest
  obtain ⟨hl, hpl⟩ := h.linked_dead ho
  have hlen : C.length < fuel := by
    have := ho.tiles.length_le
    have := h.stop_eq
    unfold Block.stop at this
    simp only [List.length_cons, headerSize] at *
    omega
  obtain ⟨m', hloop, -, hlinks⟩ := runs_coalesceLoop_blocks (B := B) (s := s.setMem _) hlen hl hpl
  obtain ⟨_, t, hrun', hQ⟩ := hrest
  obtain ⟨-, rfl⟩ := Prod.mk.inj (Option.some.inj (hrun'.symm.trans hloop.1))
  refine ⟨_, hQ, fun live => ho.not_safe h.framed.head fun b hb y _ hy => ?_⟩
  -- in front of that header the memory is that of the list
  have hbp := ho.before b hb
  refine (hlinks y fun x hx => ?_).trans (Mem.write32_apply_of_disjoint _ _ (by omega))
  obtain ⟨r, hr, rfl⟩ := List.mem_map.1 hx
  have := hpl.joinedFrom.lower r hr
  obtain ⟨d, hd, hdr, -⟩ := Block.addr_of_mem_joinedFrom hr
  rcases List.mem_cons.1 hd with rfl | hd
  · rw [p.join_addr] at hdr
    omega
  · have := (List.pairwise_cons.1 hpl.apart).1 d hd
    rw [p.join_addr] at this
    omega

end Merging

end JarvisOS
