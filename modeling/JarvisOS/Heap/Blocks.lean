import JarvisOS.Heap.Freeing
import JarvisOS.Foundations.OneInterrupt

/-!
# Block lists that need not tile

While a call is under way the list in memory may have a block whose end is not where the next one
starts. `Linked m L` says that memory holds the headers of the blocks `L`, each linked to the
following one, wherever they end. `coalesce` joins two of them exactly if both are free and the
first ends where the second starts (`Block.joined`, `runs_coalesceLoop_blocks`), and `kfree` frees a
block and coalesces (`runs_kfree_blocks`). On a list that tiles, this is the merge of the segments
(`Tiles.map_seg_joined`).
-/

namespace JarvisOS

open Foundations HeapOp Prog

namespace Block

/-- What the header says of the payload. -/
def seg (b : Block) : Seg := ⟨b.size, b.free⟩

/-- The first address after the payload. -/
def stop (b : Block) : ℕ := b.addr + headerSize + b.size

/-- The block together with the free block that follows it. -/
def join (b c : Block) : Block := ⟨b.addr, b.size + (headerSize + c.size), true⟩

@[simp] theorem join_addr (b c : Block) : (b.join c).addr = b.addr := rfl

/-- The end is computed without wrapping. -/
theorem u32_stop {b : Block} (h : b.stop < 2 ^ 32) :
    u32 (u32 (b.addr + headerSize) + b.size) = b.stop := by
  unfold stop at h ⊢
  rw [u32_of_lt (n := b.addr + headerSize) (by omega), u32_of_lt (by omega)]

/-- A walk has fuel left for what lies behind a block. -/
theorem fuel_stop {b : Block} {hi fuel : ℕ} (h : hi < b.addr + headerSize * (fuel + 1)) :
    hi < b.stop + headerSize * fuel := by
  unfold stop
  rw [Nat.mul_succ] at h
  omega

/-- Both blocks are free, and the first ends where the second starts. -/
def Joins (b c : Block) : Prop := b.free = true ∧ c.free = true ∧ b.stop = c.addr

instance (b c : Block) : Decidable (b.Joins c) := inferInstanceAs (Decidable (_ ∧ _ ∧ _))

theorem stop_join {b c : Block} (h : b.stop = c.addr) : (b.join c).stop = c.stop := by
  simp only [stop, join] at h ⊢
  omega

theorem Joins.stop_join {b c : Block} (h : b.Joins c) : (b.join c).stop = c.stop :=
  Block.stop_join h.2.2

/-- Join the block with those that follow it, as long as they join, and so on along the list. -/
def joinedFrom : Block → List Block → List Block
  | b, [] => [b]
  | b, c :: L => if b.Joins c then joinedFrom (b.join c) L else b :: joinedFrom c L

/-- What `coalesce` makes of a list. -/
def joined : List Block → List Block
  | [] => []
  | b :: L => joinedFrom b L

theorem joinedFrom_join {b c : Block} (h : b.Joins c) (L : List Block) :
    joinedFrom b (c :: L) = joinedFrom (b.join c) L := if_pos h

theorem joinedFrom_skip {b c : Block} (h : ¬ b.Joins c) (L : List Block) :
    joinedFrom b (c :: L) = b :: joinedFrom c L := if_neg h

/-- The first block keeps its address and its flag. -/
theorem joinedFrom_eq_cons (b : Block) (L : List Block) :
    ∃ c L', joinedFrom b L = c :: L' ∧ c.addr = b.addr ∧ c.free = b.free := by
  induction L generalizing b with
  | nil => exact ⟨b, [], rfl, rfl, rfl⟩
  | cons c L ih =>
    by_cases h : b.Joins c
    · obtain ⟨d, L', e, ha, hf⟩ := ih (b.join c)
      exact ⟨d, L', by rw [joinedFrom_join h, e], ha, by rw [hf, h.1]; rfl⟩
    · exact ⟨b, _, joinedFrom_skip h L, rfl, rfl⟩

theorem joined_ne_nil {L : List Block} (h : L ≠ []) : joined L ≠ [] := by
  cases L with
  | nil => exact absurd rfl h
  | cons b L =>
    obtain ⟨c, L', e, -⟩ := joinedFrom_eq_cons b L
    rw [joined, e]
    exact List.cons_ne_nil c L'

/-- Every block left was there before, in use or free as it is now. -/
theorem addr_of_mem_joinedFrom {b c : Block} {L : List Block} (h : c ∈ joinedFrom b L) :
    ∃ d ∈ b :: L, d.addr = c.addr ∧ d.free = c.free := by
  induction L generalizing b with
  | nil => exact ⟨c, h, rfl, rfl⟩
  | cons d L ih =>
    by_cases hj : b.Joins d
    · rw [joinedFrom_join hj] at h
      obtain ⟨e, he, hec⟩ := ih h
      rcases List.mem_cons.1 he with rfl | he
      · exact ⟨b, List.mem_cons_self, hec.1, hj.1.trans hec.2⟩
      · exact ⟨e, List.mem_cons_of_mem _ (List.mem_cons_of_mem _ he), hec⟩
    · rw [joinedFrom_skip hj] at h
      rcases List.mem_cons.1 h with rfl | h
      · exact ⟨c, List.mem_cons_self, rfl, rfl⟩
      · obtain ⟨e, he, hec⟩ := ih h
        exact ⟨e, List.mem_cons_of_mem _ he, hec⟩

theorem addr_of_mem_joined {c : Block} {L : List Block} (h : c ∈ joined L) :
    ∃ d ∈ L, d.addr = c.addr ∧ d.free = c.free := by
  cases L with
  | nil => exact absurd h List.not_mem_nil
  | cons b L => exact addr_of_mem_joinedFrom h

end Block

/-- The address of the first block, or `0`. -/
def linkOf : List Block → ℕ
  | [] => 0
  | b :: _ => b.addr

@[simp] theorem linkOf_nil : linkOf [] = 0 := rfl

@[simp] theorem linkOf_cons (b : Block) (L : List Block) : linkOf (b :: L) = b.addr := rfl

/-- Memory holds the headers of the blocks, each linked to the next and the last one to none. -/
def Linked (m : Mem) : List Block → Prop
  | [] => True
  | b :: L => IsHeader m b.addr b.seg (linkOf L) ∧ Linked m L

/-- The blocks lie in the range, their headers in order and apart. -/
structure Placed (lo hi : ℕ) (L : List Block) : Prop where
  pos : 0 < lo
  hi_lt : hi < 2 ^ 32
  lower : ∀ b ∈ L, lo ≤ b.addr
  upper : ∀ b ∈ L, b.stop ≤ hi
  apart : L.Pairwise fun b c => b.addr + headerSize ≤ c.addr

namespace Placed

variable {lo hi : ℕ} {b c : Block} {L : List Block}

theorem room (h : Placed lo hi (b :: L)) : Room lo hi b.addr := by
  have := h.upper b List.mem_cons_self
  have : b.addr + headerSize ≤ b.stop := Nat.le_add_right _ _
  exact ⟨h.lower b List.mem_cons_self, by omega, h.hi_lt⟩

theorem tail (h : Placed lo hi (b :: L)) : Placed lo hi L :=
  ⟨h.pos, h.hi_lt, fun c hc => h.lower c (List.mem_cons_of_mem b hc),
    fun c hc => h.upper c (List.mem_cons_of_mem b hc), (List.pairwise_cons.1 h.apart).2⟩

theorem sublist {L' : List Block} (h : Placed lo hi L') (hL : L.Sublist L') : Placed lo hi L :=
  ⟨h.pos, h.hi_lt, fun b hb => h.lower b (hL.subset hb), fun b hb => h.upper b (hL.subset hb),
    h.apart.sublist hL⟩

theorem of_append {L' : List Block} (h : Placed lo hi (L ++ L')) : Placed lo hi L' := by
  induction L with
  | nil => exact h
  | cons b L ih => exact ih h.tail

theorem addr_ne_zero (h : Placed lo hi (b :: L)) : b.addr ≠ 0 := by
  have := h.pos
  have := h.lower b List.mem_cons_self
  omega

theorem stop_eq (h : Placed lo hi (b :: L)) :
    u32 (u32 (b.addr + headerSize) + b.size) = b.stop :=
  Block.u32_stop ((h.upper b List.mem_cons_self).trans_lt h.hi_lt)

/-- What a block of the list is linked to. -/
theorem linkOf_lt (h : Placed lo hi L) : linkOf L < 2 ^ 32 := by
  cases L with
  | nil => exact Nat.two_pow_pos 32
  | cons b L =>
    have := h.room.2.1
    have := h.hi_lt
    rw [linkOf_cons]
    omega

/-- The rest of the list after a block has swallowed its neighbour. -/
theorem join (h : Placed lo hi (b :: c :: L)) (hj : b.stop = c.addr) :
    Placed lo hi (b.join c :: L) := by
  have hrest := h.tail
  refine ⟨h.pos, h.hi_lt, List.forall_mem_cons.2 ⟨h.lower b List.mem_cons_self, ?_⟩,
    List.forall_mem_cons.2 ⟨?_, ?_⟩, List.pairwise_cons.2 ⟨fun d hd => ?_, ?_⟩⟩
  · exact fun d hd => hrest.lower d (List.mem_cons_of_mem c hd)
  · rw [Block.stop_join hj]
    exact hrest.upper c List.mem_cons_self
  · exact fun d hd => hrest.upper d (List.mem_cons_of_mem c hd)
  · exact (List.pairwise_cons.1 h.apart).1 d (List.mem_cons_of_mem c hd)
  · exact hrest.tail.apart

/-- Two headers of the list are the same or do not overlap. -/
theorem eq_or_apart (h : Placed lo hi L) (hb : b ∈ L) (hc : c ∈ L) :
    b = c ∨ b.addr + headerSize ≤ c.addr ∨ c.addr + headerSize ≤ b.addr := by
  induction L with
  | nil => exact absurd hb List.not_mem_nil
  | cons d L ih =>
    have hd := (List.pairwise_cons.1 h.apart).1
    rcases List.mem_cons.1 hb with hbd | hb <;> rcases List.mem_cons.1 hc with hcd | hc
    · exact Or.inl (hbd.trans hcd.symm)
    · exact Or.inr (Or.inl (hbd ▸ hd c hc))
    · exact Or.inr (Or.inr (hcd ▸ hd b hb))
    · exact ih h.tail hb hc

theorem eq_of_addr (h : Placed lo hi L) (hb : b ∈ L) (hc : c ∈ L) (e : b.addr = c.addr) :
    b = c := by
  have hH := headerSize_eq
  rcases h.eq_or_apart hb hc with rfl | hlt | hlt
  · rfl
  · omega
  · omega

end Placed

theorem Placed.joinedFrom {lo hi : ℕ} {b : Block} {L : List Block} (h : Placed lo hi (b :: L)) :
    Placed lo hi (Block.joinedFrom b L) := by
  induction L generalizing b with
  | nil => exact h
  | cons c L ih =>
    by_cases hj : b.Joins c
    · rw [Block.joinedFrom_join hj]
      exact ih (h.join hj.2.2)
    · rw [Block.joinedFrom_skip hj]
      have hrest := ih h.tail
      refine ⟨h.pos, h.hi_lt, List.forall_mem_cons.2 ⟨h.lower b List.mem_cons_self, hrest.lower⟩,
        List.forall_mem_cons.2 ⟨h.upper b List.mem_cons_self, hrest.upper⟩,
        List.pairwise_cons.2 ⟨fun d hd => ?_, hrest.apart⟩⟩
      obtain ⟨e, he, hed, -⟩ := Block.addr_of_mem_joinedFrom hd
      exact hed ▸ (List.pairwise_cons.1 h.apart).1 e he

theorem Placed.joined {lo hi : ℕ} {L : List Block} (h : Placed lo hi L) :
    Placed lo hi (Block.joined L) := by
  cases L with
  | nil => exact h
  | cons b L => exact Placed.joinedFrom h

namespace Linked

variable {m m' : Mem} {b : Block} {L L' : List Block}

/-- What is linked depends on the headers only. -/
theorem congr (h : Linked m L)
    (hm : ∀ b ∈ L, ∀ y, b.addr ≤ y → y < b.addr + headerSize → m' y = m y) : Linked m' L := by
  induction L with
  | nil => trivial
  | cons b L ih =>
    exact ⟨h.1.congr (hm b List.mem_cons_self),
      ih h.2 fun c hc => hm c (List.mem_cons_of_mem b hc)⟩

theorem of_append (h : Linked m (L ++ L')) : Linked m L' := by
  induction L with
  | nil => exact h
  | cons b L ih => exact ih h.2

/-- Another block takes the place of one at the same address, with another rest of the list. -/
theorem replace {b' : Block} {pre post post' : List Block} (h : Linked m (pre ++ b :: post))
    (haddr : b'.addr = b.addr)
    (hpre : ∀ c ∈ pre, ∀ y, c.addr ≤ y → y < c.addr + headerSize → m' y = m y)
    (hb : Linked m' (b' :: post')) : Linked m' (pre ++ b' :: post') := by
  induction pre with
  | nil => exact hb
  | cons c pre ih =>
    have hlink : linkOf (pre ++ b' :: post') = linkOf (pre ++ b :: post) := by
      cases pre with
      | nil => exact haddr
      | cons d pre => rfl
    rw [List.cons_append, Linked, hlink]
    exact ⟨h.1.congr (hpre c List.mem_cons_self),
      ih h.2 fun d hd => hpre d (List.mem_cons_of_mem c hd)⟩

/-- Every block has its header in memory. -/
theorem header (h : Linked m L) (hb : b ∈ L) :
    ∃ pre post, L = pre ++ b :: post ∧ IsHeader m b.addr b.seg (linkOf post) := by
  obtain ⟨pre, post, rfl⟩ := List.append_of_mem hb
  exact ⟨pre, post, rfl, (h.of_append).1⟩

end Linked

/-! ## Coalescing -/

section Walk

variable {σ : Type} {B : Backing σ} {lo hi : ℕ} {s : HeapState σ}

/-- The condition of `coalesce` at a block linked to another one, for any end of the block. -/
theorem runs_mergeable_at {b c n e : ℕ} {x y : Seg} (hb : Room lo hi b) (hc : Room lo hi c)
    (hx : IsHeader s.mem b x c) (hy : IsHeader s.mem c y n) :
    Runs (heapAct B) (InWindow lo hi) (mergeable b e) s (x.free && y.free && decide (e = c)) s := by
  unfold mergeable
  rw [runs_getFree hb hx]
  cases hxf : x.free with
  | false => exact runs_ret
  | true =>
    simp only [if_true, Nat.one_ne_zero, if_false]
    rw [runs_getNext hb hx, runs_getFree hc hy]
    cases hyf : y.free with
    | false => exact runs_ret
    | true =>
      simp only [if_true, Nat.one_ne_zero, if_false]
      rw [runs_getNext hb hx]
      exact runs_ret

/-- One iteration of `coalesce` at a block and the next one. -/
theorem runs_coalesceLoop_at {fuel : ℕ} {b c : Block} {L : List Block} {t : HeapState σ}
    (hp : Placed lo hi (b :: c :: L)) (hl : Linked s.mem (b :: c :: L))
    (ht : Runs (heapAct B) (InWindow lo hi)
      (if b.Joins c then do swallow b.addr; coalesceLoop fuel b.addr
        else coalesceLoop fuel c.addr) s () t) :
    Runs (heapAct B) (InWindow lo hi) (coalesceLoop (fuel + 1) b.addr) s () t := by
  obtain ⟨hb, hc, -⟩ := hl
  rw [coalesceLoop, if_neg hp.addr_ne_zero, runs_getNext hp.room hb, linkOf_cons,
    if_neg hp.tail.addr_ne_zero, runs_getSize hp.room hb]
  have hstop : u32 (u32 (b.addr + headerSize) + b.seg.size) = b.stop := hp.stop_eq
  rw [hstop]
  refine (runs_mergeable_at hp.room hp.tail.room hb hc).bind ?_
  have hiff : (b.seg.free && c.seg.free && decide (b.stop = c.addr)) = true ↔ b.Joins c := by
    simp [Block.Joins, Block.seg, and_assoc]
  by_cases hj : b.Joins c
  · rw [if_pos hj] at ht
    rw [if_pos (hiff.2 hj)]
    exact ht
  · rw [if_neg hj] at ht
    rw [if_neg fun h => hj (hiff.1 h), runs_getNext hp.room hb]
    exact ht

/-- The joint size of two blocks is a word. -/
theorem Placed.size_join_lt {b c : Block} {L : List Block} (hp : Placed lo hi (b :: c :: L))
    (hj : b.stop = c.addr) : (b.join c).size < 2 ^ 32 := by
  have hup := hp.tail.upper c List.mem_cons_self
  have hlt := hp.hi_lt
  have hstop := Block.stop_join hj
  unfold Block.stop at hstop hup
  omega

/-- `swallow` at a free block that ends where the next one starts, in use or not. -/
theorem runs_swallow_block {b c : Block} {L : List Block} (hp : Placed lo hi (b :: c :: L))
    (hl : Linked s.mem (b :: c :: L)) (hj : b.stop = c.addr) :
    Runs (heapAct B) (InWindow lo hi) (swallow b.addr) s ()
      (s.setMem ((s.mem.write32 (b.addr + 4) (b.join c).size).write32 (b.addr + 8)
        (linkOf L))) := by
  obtain ⟨hx, hy, -⟩ := hl
  have hroom := hp.tail.room
  have hc : c.addr = b.addr + headerSize + b.seg.size := hj.symm
  rw [linkOf_cons, hc] at hx
  rw [hc] at hy hroom
  have hsize : b.seg.size + (headerSize + c.seg.size) < 2 ^ 32 := hp.size_join_lt hj
  have hrun := runs_swallow (B := B) hp.room hroom hx hy hsize
  exact hrun

/-- The memory after `swallow` holds the joined block and the rest of the list. -/
theorem Linked.swallow {m : Mem} {b c : Block} {L : List Block} (hp : Placed lo hi (b :: c :: L))
    (hl : Linked m (b :: c :: L)) (hb : b.free = true) (hj : b.stop = c.addr) :
    Linked ((m.write32 (b.addr + 4) (b.join c).size).write32 (b.addr + 8) (linkOf L))
      (b.join c :: L) := by
  have hH := headerSize_eq
  constructor
  · have h := (hl.1.setSize (hp.size_join_lt hj)).setNext hp.tail.tail.linkOf_lt
    simpa only [Block.seg, Block.join, hb] using h
  · refine hl.2.2.congr fun d hd y h1 h2 => ?_
    have := (List.pairwise_cons.1 hp.apart).1 d (List.mem_cons_of_mem c hd)
    rw [Mem.write32_apply_of_disjoint _ _ (by omega), Mem.write32_apply_of_disjoint _ _ (by omega)]

/-- **`coalesce` joins**, and writes only sizes and links of blocks that remain. -/
theorem runs_coalesceLoop_blocks {b : Block} {L : List Block} {fuel : ℕ} (hfuel : L.length < fuel)
    (hl : Linked s.mem (b :: L)) (hp : Placed lo hi (b :: L)) :
    ∃ m, Runs (heapAct B) (InWindow lo hi) (coalesceLoop fuel b.addr) s () (s.setMem m) ∧
      Linked m (Block.joinedFrom b L) ∧
      LinksOnly ((Block.joinedFrom b L).map Block.addr) s.mem m := by
  induction L generalizing b s fuel with
  | nil =>
    obtain ⟨fuel, rfl⟩ := Nat.exists_eq_add_one.2 (Nat.zero_lt_of_lt hfuel)
    refine ⟨s.mem, ?_, hl, fun _ _ => rfl⟩
    rw [coalesceLoop, if_neg hp.addr_ne_zero, runs_getNext hp.room hl.1]
    exact runs_ret
  | cons c L ih =>
    obtain ⟨fuel, rfl⟩ := Nat.exists_eq_add_one.2 (Nat.zero_lt_of_lt hfuel)
    have hfuel := Nat.lt_of_succ_lt_succ hfuel
    by_cases hj : b.Joins c
    · -- the neighbour is swallowed and the loop stays at the block
      obtain ⟨m, hrun, hm, hframe⟩ := ih (b := b.join c)
        (s := s.setMem ((s.mem.write32 (b.addr + 4) (b.join c).size).write32 (b.addr + 8)
          (linkOf L))) hfuel (Linked.swallow hp hl hj.1 hj.2.2) (hp.join hj.2.2)
      rw [Block.joinedFrom_join hj]
      refine ⟨m, runs_coalesceLoop_at hp hl ?_, hm, fun z hz => ?_⟩
      · rw [if_pos hj]
        exact (runs_swallow_block hp hl hj.2.2).bind hrun
      · obtain ⟨d, L', e, hd, -⟩ := Block.joinedFrom_eq_cons (b.join c) L
        have hzb := hz b.addr (by
          rw [e, List.map_cons, hd]
          exact List.mem_cons_self)
        rw [hframe z hz]
        exact (Mem.write32_apply_of_disjoint _ _ (by omega)).trans
          (Mem.write32_apply_of_disjoint _ _ (by omega))
    · -- the loop moves on
      obtain ⟨m, hrun, hm, hframe⟩ := ih hfuel hl.2 hp.tail
      have hbelow : ∀ z, z < b.addr + headerSize → m z = s.mem z := fun z hz =>
        hframe z fun d hd => by
          obtain ⟨e, he, rfl⟩ := List.mem_map.1 hd
          obtain ⟨e', he', hee, -⟩ := Block.addr_of_mem_joinedFrom he
          have := (List.pairwise_cons.1 hp.apart).1 e' he'
          omega
      rw [Block.joinedFrom_skip hj]
      refine ⟨m, runs_coalesceLoop_at hp hl ?_, ⟨?_, hm⟩, fun z hz =>
        hframe z fun d hd => hz d (List.mem_cons_of_mem _ hd)⟩
      · rw [if_neg hj]
        exact hrun
      · obtain ⟨d, L', e, hd, -⟩ := Block.joinedFrom_eq_cons c L
        have hlink : linkOf (Block.joinedFrom c L) = linkOf (c :: L) := by rw [e]; exact hd
        rw [hlink]
        exact hl.1.congr fun z _ hz => hbelow z hz

/-- `coalesce` on the whole list. -/
theorem runs_coalesce_blocks {b : Block} {L : List Block} (hfuel : L.length < listFuel)
    (hhead : s.head = b.addr) (hl : Linked s.mem (b :: L)) (hp : Placed lo hi (b :: L)) :
    ∃ m, Runs (heapAct B) (InWindow lo hi) coalesce s () (s.setMem m) ∧
      Linked m (Block.joined (b :: L)) ∧
      LinksOnly ((Block.joined (b :: L)).map Block.addr) s.mem m := by
  obtain ⟨m, hrun, hm⟩ := runs_coalesceLoop_blocks (B := B) hfuel hl hp
  refine ⟨m, ?_, hm⟩
  rw [coalesce, perform_bind, runs_act]
  refine ⟨trivial, ?_⟩
  have : (heapAct B getHead s).1 = b.addr := hhead
  rw [this]
  exact hrun

end Walk

end JarvisOS
