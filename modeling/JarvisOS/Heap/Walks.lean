import JarvisOS.Heap.Layout

/-!
# The loops over the block list

What `coalesce`, the walk to the last block, the search of `kmalloc` and the walk of `heap_used` do
to a list of blocks in memory. Every result names the list after the walk and the bytes that may
have changed.
-/

namespace JarvisOS

open Foundations HeapOp Prog

variable {σ : Type} {B : Backing σ} {lo hi : ℕ} {s : HeapState σ}

/-- The list `l` from `a` on lies in the range. -/
structure Spans (lo hi a : ℕ) (l : List Seg) : Prop where
  pos : 0 < lo
  lower : lo ≤ a
  upper : a + Seg.span headerSize l ≤ hi
  hi_lt : hi < 2 ^ 32

namespace Spans

variable {a : ℕ} {x : Seg} {l : List Seg}

theorem room (h : Spans lo hi a (x :: l)) : Room lo hi a := by
  have := h.upper
  rw [Seg.span_cons] at this
  exact ⟨h.lower, by omega, h.hi_lt⟩

theorem tail (h : Spans lo hi a (x :: l)) : Spans lo hi (a + headerSize + x.size) l := by
  obtain ⟨h1, h2, h3, h4⟩ := h
  rw [Seg.span_cons] at h3
  exact ⟨h1, by omega, by omega, h4⟩

theorem ne_zero (h : Spans lo hi a l) : a ≠ 0 := by
  have := h.pos
  have := h.lower
  omega

theorem payload_end (h : Spans lo hi a (x :: l)) :
    u32 (u32 (a + headerSize) + x.size) = a + headerSize + x.size := by
  obtain ⟨-, -, h3, h4⟩ := h
  rw [Seg.span_cons] at h3
  rw [u32_of_lt (n := a + headerSize) (by omega), u32_of_lt (by omega)]

end Spans

/-! ## Coalescing -/

/-- The memories differ at most in the sizes and links of headers at `hs`. -/
def LinksOnly (hs : List ℕ) (m m' : Mem) : Prop :=
  ∀ y, (∀ h ∈ hs, y < h + 4 ∨ h + 12 ≤ y) → m' y = m y

theorem runs_mergeable {b c n : ℕ} {x y : Seg} (hb : Room lo hi b) (hc : Room lo hi c)
    (hx : IsHeader s.mem b x c) (hy : IsHeader s.mem c y n) :
    Runs (heapAct B) (InWindow lo hi) (mergeable b c) s (x.free && y.free) s := by
  unfold mergeable
  rw [runs_getFree hb hx]
  cases hxf : x.free with
  | false => exact runs_ret
  | true =>
    simp only [if_true, Nat.one_ne_zero, if_false]
    rw [runs_getNext hb hx, runs_getFree hc hy]
    cases hyf : y.free with
    | false => exact runs_ret
    | true =>
      simp only [if_true, Nat.one_ne_zero, if_false]
      rw [runs_getNext hb hx, decide_eq_true rfl]
      exact runs_ret

/-- Swallowing the neighbour changes the size and the link of the block. -/
theorem runs_swallow {b n : ℕ} {x y : Seg} (hb : Room lo hi b)
    (hc : Room lo hi (b + headerSize + x.size))
    (hx : IsHeader s.mem b x (b + headerSize + x.size))
    (hy : IsHeader s.mem (b + headerSize + x.size) y n)
    (hsize : x.size + (headerSize + y.size) < 2 ^ 32) :
    Runs (heapAct B) (InWindow lo hi) (swallow b) s ()
      (s.setMem ((s.mem.write32 (b + 4) (x.size + (headerSize + y.size))).write32 (b + 8) n)) := by
  have hH := headerSize_eq
  unfold swallow
  rw [runs_getNext hb hx, runs_getSize hc hy, runs_getSize hb hx, runs_setSize hb,
    u32_of_lt (n := headerSize + y.size) (by omega), u32_of_lt hsize]
  have hx' := hx.setSize hsize
  have hy' : IsHeader (s.mem.write32 (b + 4) (x.size + (headerSize + y.size)))
      (b + headerSize + x.size) y n := hy.write_of_disjoint (by omega)
  rw [runs_getNext hb hx', runs_getNext hc hy', runs_setNext hb]
  exact runs_ret

/-- One iteration of `coalesce` at a block and its neighbour. -/
theorem runs_coalesceLoop_succ {a fuel n : ℕ} {x y : Seg} {l : List Seg} {t : HeapState σ}
    (ha : Spans lo hi a (x :: y :: l)) (hx : IsHeader s.mem a x (a + headerSize + x.size))
    (hy : IsHeader s.mem (a + headerSize + x.size) y n)
    (ht : Runs (heapAct B) (InWindow lo hi)
      (if (x.free && y.free) = true then do swallow a; coalesceLoop fuel a
        else coalesceLoop fuel (a + headerSize + x.size)) s () t) :
    Runs (heapAct B) (InWindow lo hi) (coalesceLoop (fuel + 1) a) s () t := by
  rw [coalesceLoop, if_neg ha.ne_zero, runs_getNext ha.room hx, if_neg ha.tail.ne_zero,
    runs_getSize ha.room hx, ha.payload_end]
  refine (runs_mergeable ha.room ha.tail.room hx hy).bind ?_
  cases h : x.free && y.free with
  | true =>
    rw [h] at ht
    exact ht
  | false =>
    rw [h] at ht
    simp only [Bool.false_eq_true, if_false] at ht ⊢
    rw [runs_getNext ha.room hx]
    exact ht

/-- The memory after `swallow` holds the joined block and the rest of the list. -/
theorem Holds.swallow {m : Mem} {a : ℕ} {x y : Seg} {l : List Seg}
    (ha : Spans lo hi a (x :: y :: l))
    (hfree : x.free = true) (hx : IsHeader m a x (a + headerSize + x.size))
    (hrest : Holds m (a + headerSize + x.size + headerSize + y.size) l 0) :
    Holds ((m.write32 (a + 4) (x.size + (headerSize + y.size))).write32 (a + 8)
      (linkTo (a + headerSize + x.size + headerSize + y.size) l 0)) a
      (⟨x.size + (headerSize + y.size), true⟩ :: l) 0 := by
  have hH := headerSize_eq
  have hs := ha.upper
  have hlt := ha.hi_lt
  rw [Seg.span_cons, Seg.span_cons] at hs
  have hsize : x.size + (headerSize + y.size) < 2 ^ 32 := by omega
  have hnext : a + headerSize + (x.size + (headerSize + y.size)) =
      a + headerSize + x.size + headerSize + y.size := by omega
  have hlink : linkTo (a + headerSize + x.size + headerSize + y.size) l 0 < 2 ^ 32 := by
    cases l with
    | nil => exact Nat.two_pow_pos 32
    | cons z l =>
      rw [linkTo_cons]
      omega
  constructor
  · simpa only [hnext, hfree] using (hx.setSize hsize).setNext hlink
  · simp only [hnext]
    apply hrest.congr
    intro z hz _
    rw [Mem.write32_apply_of_disjoint _ _ (by omega), Mem.write32_apply_of_disjoint _ _ (by omega)]

/-- **`coalesce` merges**: from a block on, the list in memory becomes its merge, and only sizes
and links of blocks that remain are written. -/
theorem runs_coalesceLoop {l : List Seg} {x : Seg} {a fuel : ℕ} (hfuel : l.length < fuel)
    (hl : Holds s.mem a (x :: l) 0) (ha : Spans lo hi a (x :: l)) :
    ∃ m, Runs (heapAct B) (InWindow lo hi) (coalesceLoop fuel a) s () (s.setMem m) ∧
      Holds m a (Seg.mergeFrom headerSize x l) 0 ∧
      LinksOnly (Seg.starts headerSize a (Seg.mergeFrom headerSize x l)) s.mem m := by
  induction l generalizing x a s fuel with
  | nil =>
    obtain ⟨fuel, rfl⟩ := Nat.exists_eq_add_one.2 (Nat.zero_lt_of_lt hfuel)
    refine ⟨s.mem, ?_, hl, fun _ _ => rfl⟩
    rw [coalesceLoop, if_neg ha.ne_zero, runs_getNext ha.room hl.1]
    exact runs_ret
  | cons y l ih =>
    obtain ⟨fuel, rfl⟩ := Nat.exists_eq_add_one.2 (Nat.zero_lt_of_lt hfuel)
    have hfuel := Nat.lt_of_succ_lt_succ hfuel
    obtain ⟨hx, hy, hrest⟩ := hl
    rw [linkTo_cons] at hx
    by_cases h : x.free = true ∧ y.free = true
    · -- the neighbour is swallowed and the loop stays at the block
      have hs := ha.upper
      have hlt := ha.hi_lt
      rw [Seg.span_cons, Seg.span_cons] at hs
      have hsize : x.size + (headerSize + y.size) < 2 ^ 32 := by omega
      have hl₁ := Holds.swallow ha h.1 hx hrest
      have ha₁ : Spans lo hi a (⟨x.size + (headerSize + y.size), true⟩ :: l) :=
        ⟨ha.pos, ha.lower, by simp only [Seg.span_cons]; omega, ha.hi_lt⟩
      obtain ⟨m, hrun, hm, hframe⟩ := ih (s := s.setMem _) hfuel hl₁ ha₁
      rw [Seg.mergeFrom_join headerSize h.1 h.2]
      refine ⟨m, runs_coalesceLoop_succ ha hx hy ?_, hm, fun z hz => ?_⟩
      · rw [if_pos (by simpa using h)]
        exact (runs_swallow ha.room ha.tail.room hx hy hsize).bind hrun
      · obtain ⟨w, l', e, -⟩ := Seg.mergeFrom_eq_cons headerSize
          ⟨x.size + (headerSize + y.size), true⟩ l
        have hza := hz a (by rw [e, Seg.starts_cons]; exact List.mem_cons_self)
        rw [hframe z hz]
        exact (Mem.write32_apply_of_disjoint _ _ (by omega)).trans
          (Mem.write32_apply_of_disjoint _ _ (by omega))
    · -- the loop moves on
      obtain ⟨m, hrun, hm, hframe⟩ := ih hfuel ⟨hy, hrest⟩ ha.tail
      have hbelow : ∀ z, z < a + headerSize + x.size → m z = s.mem z := fun z hz =>
        hframe z fun b hb => Or.inl (by have := (Seg.starts_bounds _ hb).1; omega)
      rw [Seg.mergeFrom_skip headerSize h]
      refine ⟨m, runs_coalesceLoop_succ ha hx hy ?_, ⟨?_, hm⟩, fun z hz =>
        hframe z fun b hb => hz b (List.mem_cons_of_mem a hb)⟩
      · rw [if_neg (by simpa using h)]
        exact hrun
      · obtain ⟨w, l', e, -⟩ := Seg.mergeFrom_eq_cons headerSize y l
        rw [e, linkTo_cons]
        exact hx.congr fun z _ _ => hbelow z (by omega)

/-- `coalesce` on the whole heap. -/
theorem runs_coalesce {l : List Seg} {x : Seg} (lo hi : ℕ) (hfuel : l.length < listFuel)
    (hl : Holds s.mem s.head (x :: l) 0) (ha : Spans lo hi s.head (x :: l)) :
    ∃ m, Runs (heapAct B) (InWindow lo hi) coalesce s () (s.setMem m) ∧
      Holds m s.head (Seg.mergeFrom headerSize x l) 0 ∧
      LinksOnly (Seg.starts headerSize s.head (Seg.mergeFrom headerSize x l)) s.mem m := by
  obtain ⟨m, hrun, hm⟩ := runs_coalesceLoop (B := B) hfuel hl ha
  refine ⟨m, ?_, hm⟩
  rw [coalesce, perform_bind, runs_act]
  exact ⟨trivial, hrun⟩

/-! ## The last block -/

theorem runs_tailLoop (pre : List Seg) (x : Seg) {a fuel : ℕ} (hfuel : pre.length < fuel)
    (hl : Holds s.mem a (pre ++ [x]) 0) (ha : Spans lo hi a (pre ++ [x])) :
    Runs (heapAct B) (InWindow lo hi) (tailLoop fuel a) s (a + Seg.span headerSize pre) s := by
  induction pre generalizing a fuel with
  | nil =>
    obtain ⟨fuel, rfl⟩ := Nat.exists_eq_add_one.2 (Nat.zero_lt_of_lt hfuel)
    rw [tailLoop, runs_getNext ha.room hl.1]
    exact runs_ret
  | cons y pre ih =>
    obtain ⟨fuel, rfl⟩ := Nat.exists_eq_add_one.2 (Nat.zero_lt_of_lt hfuel)
    rw [List.cons_append, Holds] at hl
    obtain ⟨hy, hrest⟩ := hl
    rw [linkTo_append_cons] at hy
    have := ih (Nat.lt_of_succ_lt_succ hfuel) hrest ha.tail
    rw [tailLoop, runs_getNext ha.room hy, if_neg ha.tail.ne_zero, runs_getNext ha.room hy,
      Seg.span_cons, show a + (headerSize + y.size + Seg.span headerSize pre) =
        a + headerSize + y.size + Seg.span headerSize pre by omega]
    exact this

/-! ## First fit -/

theorem runs_unfit {S : HeapOp → ℕ → Prop} (hS : LoadsIn lo hi S) {b n size : ℕ} {x : Seg}
    (hb : Room lo hi b) (hx : IsHeader s.mem b x n) :
    Runs (heapAct B) S (unfit b size) s (!decide (x.Fits size)) s := by
  rw [unfit, getFree, runs_load hS hb le_rfl, hx.free]
  by_cases hf : x.free = true
  · have hfits : decide (x.Fits size) = decide (size ≤ x.size) :=
      decide_eq_decide.2 (and_iff_right hf)
    rw [if_pos hf, if_neg Nat.one_ne_zero, getSize, runs_load hS hb (by decide), hx.size, hfits,
      show decide (x.size < size) = !decide (size ≤ x.size) by grind]
    exact runs_ret
  · rw [if_neg hf, if_pos rfl, decide_eq_false fun h : x.Fits size => hf h.1]
    exact runs_ret

/-- Where nothing fits, the search comes to the end of the list, and only reads. -/
theorem runs_searchLoop_none {S : HeapOp → ℕ → Prop} (hS : LoadsIn lo hi S) {l : List Seg}
    {a fuel size : ℕ} (hfuel : l.length < fuel) (hl : Holds s.mem a l 0) (ha : Spans lo hi a l)
    (hno : ∀ x ∈ l, ¬ x.Fits size) :
    Runs (heapAct B) S (searchLoop size fuel (linkTo a l 0)) s none s := by
  induction l generalizing a fuel with
  | nil =>
    obtain ⟨fuel, rfl⟩ := Nat.exists_eq_add_one.2 (Nat.zero_lt_of_lt hfuel)
    rw [searchLoop, linkTo_nil, if_pos rfl]
    exact runs_ret
  | cons x l ih =>
    obtain ⟨fuel, rfl⟩ := Nat.exists_eq_add_one.2 (Nat.zero_lt_of_lt hfuel)
    rw [searchLoop, linkTo_cons, if_neg ha.ne_zero]
    refine (runs_unfit hS ha.room hl.1).bind ?_
    rw [if_pos (by simpa using hno x List.mem_cons_self), getNext, runs_load hS ha.room (by decide),
      hl.1.next]
    exact ih (Nat.lt_of_succ_lt_succ hfuel) hl.2 ha.tail fun y hy =>
      hno y (List.mem_cons_of_mem x hy)

/-- The search stops at the first block that fits, and takes it. -/
theorem runs_searchLoop_some {pre post : List Seg} {x : Seg} {a fuel size p : ℕ} {t : HeapState σ}
    (hfuel : pre.length < fuel) (hl : Holds s.mem a (pre ++ x :: post) 0)
    (ha : Spans lo hi a (pre ++ x :: post)) (hpre : ∀ y ∈ pre, ¬ y.Fits size) (hx : x.Fits size)
    (ht : Runs (heapAct B) (InWindow lo hi) (takeBlock (a + Seg.span headerSize pre) size) s p t) :
    Runs (heapAct B) (InWindow lo hi) (searchLoop size fuel a) s (some p) t := by
  induction pre generalizing a fuel with
  | nil =>
    obtain ⟨fuel, rfl⟩ := Nat.exists_eq_add_one.2 (Nat.zero_lt_of_lt hfuel)
    rw [searchLoop, if_neg ha.ne_zero]
    refine (runs_unfit loadsIn_inWindow ha.room hl.1).bind ?_
    rw [if_neg (by simpa using hx)]
    exact ht.bind runs_ret
  | cons y pre ih =>
    obtain ⟨fuel, rfl⟩ := Nat.exists_eq_add_one.2 (Nat.zero_lt_of_lt hfuel)
    rw [List.cons_append, Holds] at hl
    obtain ⟨hy, hrest⟩ := hl
    rw [linkTo_append_cons] at hy
    rw [searchLoop, if_neg ha.ne_zero]
    refine (runs_unfit loadsIn_inWindow ha.room hy).bind ?_
    rw [if_pos (by simpa using hpre y List.mem_cons_self), runs_getNext ha.room hy]
    refine ih (Nat.lt_of_succ_lt_succ hfuel) hrest ha.tail
      (fun z hz => hpre z (List.mem_cons_of_mem y hz)) ?_
    rw [Seg.span_cons] at ht
    rwa [show a + headerSize + y.size + Seg.span headerSize pre =
      a + (headerSize + y.size + Seg.span headerSize pre) by omega]

/-- The memories differ at most in the headers at `hs`. -/
def HeadersOnly (hs : List ℕ) (m m' : Mem) : Prop :=
  ∀ y, (∀ h ∈ hs, y < h ∨ h + headerSize ≤ y) → m' y = m y

/-- **Taking a block carves it**: the block becomes the taken one, followed by the rest if that was
split off, and only the headers of the two are written. -/
theorem runs_takeBlock {b n size : ℕ} {x : Seg} (hb : Spans lo hi b [x]) (hx : IsHeader s.mem b x n)
    (hn : n < 2 ^ 32) (hfit : x.Fits size) (hsmall : x.size + headerSize + minSplit < 2 ^ 32) :
    ∃ m, Runs (heapAct B) (InWindow lo hi) (takeBlock b size) s (b + headerSize) (s.setMem m) ∧
      Holds m b (Seg.carve headerSize minSplit size x) n ∧
      HeadersOnly (Seg.starts headerSize b (Seg.carve headerSize minSplit size x)) s.mem m := by
  have hH := headerSize_eq
  have hspan := hb.upper
  have hlt := hb.hi_lt
  rw [Seg.span_cons, Seg.span_nil] at hspan
  obtain ⟨hfree, hle⟩ := hfit
  have hroom := hb.room
  unfold takeBlock
  rw [u32_of_lt (n := size + headerSize) (by omega),
    u32_of_lt (n := size + headerSize + minSplit) (by omega), u32_of_lt (n := b + headerSize)
      (by omega), u32_of_lt (n := b + headerSize + size) (by omega)]
  by_cases hsplit : size + headerSize + minSplit ≤ x.size
  · have hr : Room lo hi (b + headerSize + size) := ⟨by have := hb.lower; omega, by omega, hlt⟩
    have hrest : sub32 (sub32 x.size size) headerSize = x.size - size - headerSize := by
      rw [sub32_of_le hle (by omega), sub32_of_le (by omega) (by omega)]
    have hx₁ := hx.write_of_disjoint (c := b + headerSize + size) (v := blockMagic) (by omega)
    have hx₂ := hx₁.write_of_disjoint (c := b + headerSize + size + 4)
      (v := x.size - size - headerSize) (by omega)
    have hx₃ := ((hx₂.write_of_disjoint (c := b + headerSize + size + 8) (v := n) (by omega)
      ).write_of_disjoint (c := b + headerSize + size + 12) (v := 1) (by omega))
    have hy := IsHeader.of_put s.mem (b + headerSize + size) ⟨x.size - size - headerSize, true⟩
      (show x.size - size - headerSize < 2 ^ 32 by omega) hn
    simp only [IsHeader.put, if_true] at hy
    refine ⟨?split, ?run, ?list⟩
    case run =>
      rw [runs_getSize hroom hx, if_pos hsplit]
      simp only
      rw [runs_setMagic hr, runs_getSize hroom hx₁, hrest, runs_setSize hr, runs_getNext hroom hx₂,
        runs_setNext hr, runs_setFree hr, runs_setSize hroom, runs_setNext hroom,
          runs_setFree hroom]
      simp only [HeapState.setMem_setMem, HeapState.setMem_mem]
      exact runs_ret
    case list =>
      rw [Seg.carve, if_pos hsplit]
      refine ⟨⟨?_, ?_, trivial⟩, fun y hy => ?_⟩
      · exact ((hx₃.setSize (by omega)).setNext (by omega)).setFree false
      · exact ((hy.write_of_disjoint (by omega)).write_of_disjoint (by omega)).write_of_disjoint
          (by omega)
      · have h1 := hy b List.mem_cons_self
        have h2 := hy (b + headerSize + size) (List.mem_cons_of_mem b List.mem_cons_self)
        repeat rw [Mem.write32_apply_of_disjoint _ _ (by omega)]
  · refine ⟨?whole, ?run, ?list⟩
    case run =>
      rw [runs_getSize hroom hx, if_neg hsplit]
      simp only
      rw [runs_setFree hroom]
      exact runs_ret
    case list =>
      rw [Seg.carve, if_neg hsplit]
      refine ⟨⟨hx.setFree false, trivial⟩, fun y hy => ?_⟩
      have h1 := hy b List.mem_cons_self
      exact Mem.write32_apply_of_disjoint _ _ (by omega)

/-! ## Statistics -/

theorem runs_usedLoop {l : List Seg} {a fuel : ℕ} (used : ℕ) (hfuel : l.length < fuel)
    (hl : Holds s.mem a l 0) (ha : Spans lo hi a l)
    (hused : used + Seg.usedBytes headerSize l < 2 ^ 32) :
    Runs (heapAct B) (InWindow lo hi) (usedLoop fuel (linkTo a l 0) used) s
      (used + Seg.usedBytes headerSize l) s := by
  induction l generalizing a fuel used with
  | nil =>
    obtain ⟨fuel, rfl⟩ := Nat.exists_eq_add_one.2 (Nat.zero_lt_of_lt hfuel)
    rw [usedLoop, linkTo_nil, if_pos rfl]
    exact runs_ret
  | cons x l ih =>
    obtain ⟨fuel, rfl⟩ := Nat.exists_eq_add_one.2 (Nat.zero_lt_of_lt hfuel)
    have hfuel := Nat.lt_of_succ_lt_succ hfuel
    simp only [Seg.usedBytes] at hused ⊢
    rw [linkTo_cons]
    simp only [usedLoop]
    rw [if_neg ha.ne_zero, u32_of_lt (by omega), runs_getFree ha.room hl.1]
    by_cases hf : x.free = true
    · rw [if_pos hf] at hused ⊢
      rw [if_pos hf, if_neg Nat.one_ne_zero, runs_getNext ha.room hl.1, Nat.add_zero,
        ← Nat.add_assoc]
      exact ih _ hfuel hl.2 ha.tail (by omega)
    · rw [if_neg hf] at hused ⊢
      rw [if_neg hf, if_pos rfl, runs_getSize ha.room hl.1, runs_getNext ha.room hl.1,
        u32_of_lt (by omega), ← Nat.add_assoc, ← Nat.add_assoc]
      exact ih _ hfuel hl.2 ha.tail (by omega)

end JarvisOS
