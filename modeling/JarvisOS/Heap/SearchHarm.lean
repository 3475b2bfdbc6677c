import JarvisOS.Heap.KfreeHarm

/-!
# Where an interrupt harms the search of `kmalloc`

If freeing removes a block from the list that is large enough, and the search has come as far as its
header when the interrupt comes, the search takes it (`Calling.small_of_lost`): the new allocation
is no block of the list.
-/

namespace JarvisOS

open Foundations HeapOp Prog

variable {σ : Type} {B : Backing σ} {tick : HeapState σ → Option (HeapState σ)}
  {hi a n r size fuel attempts : ℕ} {s t u : HeapState σ} {live : Set (ℕ × ℕ)} {D : List ℕ}
  {L M pre post : List Block} {y z : Block}

/-- What has been removed from the list has been removed once. -/
theorem Tiles.eq_of_lost (h : Tiles hi a L) (hz : z ∈ Block.reapLost D L) :
    (∀ b ∈ Block.reap D L, b.addr ≠ z.addr) ∧
      ∀ x ∈ Block.reapLost D L, x.addr = z.addr → x = z := by
  induction D generalizing L with
  | nil => exact absurd hz List.not_mem_nil
  | cons d D ih =>
    have ht := h.freeAt d
    have hkeep : ∀ w ∈ Block.lost (Block.freeAt d L),
        (∀ b ∈ Block.reap D (Block.joined (Block.freeAt d L)), b.addr ≠ w.addr) ∧
          ∀ b ∈ Block.reapLost D (Block.joined (Block.freeAt d L)), b.addr ≠ w.addr := by
      intro w hw
      have hw := of_decide_eq_true (List.mem_filter.1 hw).2
      refine ⟨fun b hb e => ?_, fun b hb e => ?_⟩
      · obtain ⟨c, hc, hcb, -⟩ := Block.addr_of_mem_reap hb
        exact hw c hc (hcb.trans e)
      · obtain ⟨c, hc, hcb, -⟩ := Block.size_le_of_mem_reapLost hb
        exact hw c hc (hcb.trans e)
    rcases List.mem_append.1 hz with hz | hz
    · refine ⟨(hkeep z hz).1, fun x hx e => ?_⟩
      rcases List.mem_append.1 hx with hx | hx
      · exact ht.eq_of_addr (List.mem_filter.1 hx).1 (List.mem_filter.1 hz).1 e
      · exact absurd e ((hkeep z hz).2 x hx)
    · obtain ⟨hnot, huniq⟩ := ih ht.joined hz
      refine ⟨hnot, fun x hx e => ?_⟩
      rcases List.mem_append.1 hx with hx | hx
      · exact absurd e.symm ((hkeep x hx).2 z hz)
      · exact huniq x hx e

/-! ## The new allocation in a safe heap -/

/-- `r` has been returned for `n` bytes, and the heap is safe, whatever has been written to the new
payload since. -/
def AllottedSafely (live : Set (ℕ × ℕ)) (n r : ℕ) (t : HeapState σ) : Prop :=
  ∃ m : Mem, (r + n < 2 ^ 32 → ∀ a, a < r ∨ r + n ≤ a → m a = t.mem a) ∧
    HeapSafe ⟨t.setMem m, if r = 0 then live else insert (r, n) live⟩

/-- What is in memory as a list tiles the heap, and the new allocation is one of its blocks. -/
theorem AllottedSafely.of_linked (h : AllottedSafely live n r t) (hl : Linked t.mem L)
    (hpos : ∀ b ∈ L, b.addr ≠ 0) (hhead : t.head = linkOf L) (hlt : r + n < 2 ^ 32)
    (hout : ∀ b ∈ L, b.addr + headerSize ≤ r ∨ r + n ≤ b.addr) :
    Tiles t.brk heapStart L ∧ (r ≠ 0 → ∃ b ∈ L, b.addr + headerSize = r) := by
  obtain ⟨m, hm, hsafe⟩ := h
  have hlm : Linked m L := hl.congr fun b hb x h1 h2 => hm hlt x (by
    have := hout b hb
    omega)
  obtain ⟨ht, hin⟩ := hsafe.of_linked (t := t.setMem m) hlm hpos hhead
  exact ⟨ht, fun hr => hin (r, n) (by rw [if_neg hr]; exact Set.mem_insert _ _)⟩

/-! ## As far as a block -/

/-- The search comes to a block if it passes over all blocks in front of it. -/
theorem Tiles.interrupted_searchLoop {Q : Option ℕ → HeapState σ → Prop}
    (ht : Tiles hi a (pre ++ y :: post)) (ha : heapStart ≤ a) (hlt : hi < 2 ^ 32)
    (hl : Linked s.mem (pre ++ y :: post)) (hpre : ∀ c ∈ pre, ¬ c.seg.Fits size)
    (hfuel : hi < a + headerSize * fuel)
    (hI : Interrupted (heapAct B) tick (searchLoop size fuel a) s Q) :
    ∃ fuel', Interrupted (heapAct B) tick (searchLoop size (fuel' + 1) y.addr) s Q := by
  induction pre generalizing a fuel with
  | nil =>
    obtain ⟨fuel, rfl⟩ := exists_fuel ht.le hfuel
    obtain ⟨rfl, -⟩ := ht
    exact ⟨fuel, hI⟩
  | cons b pre ih =>
    have hp := ht.placed ha hlt
    obtain ⟨fuel, rfl⟩ := exists_fuel ht.le hfuel
    obtain ⟨rfl, hrest⟩ := ht
    change Tiles hi b.stop (pre ++ y :: post) at hrest
    rw [List.cons_append] at hl
    obtain ⟨hb, hlrest⟩ := hl
    have hstop : b.addr + headerSize ≤ b.stop := Nat.le_add_right _ _
    rw [searchLoop, if_neg hp.addr_ne_zero] at hI
    replace hI := hI.of_bind_run (runs_unfit (B := B) loadsIn_inWindow hp.room hb).1
    rw [if_pos (by simpa using hpre b List.mem_cons_self)] at hI
    replace hI := ((interrupted_getNext hp.room hb).1 hI).2
    rw [hrest.linkOf_eq (by simp)] at hI
    exact ih hrest (ha.trans ((Nat.le_add_right _ _).trans hstop)) hlrest
      (fun c hc => hpre c (List.mem_cons_of_mem b hc)) (Block.fuel_stop hfuel) hI

/-- Taking a block writes no header that is not in it. -/
theorem Linked.of_takeBlock {m m' : Mem} (h : Linked m L)
    (hm : HeadersOnly
      (Seg.starts headerSize z.addr (Seg.carve headerSize minSplit size z.seg)) m m')
    (hout : ∀ b ∈ L, b.addr + headerSize ≤ z.addr ∨ z.stop ≤ b.addr) : Linked m' L := by
  refine h.congr fun b hb x h1 h2 => hm x fun c hc => ?_
  obtain ⟨hlow, hup⟩ := Seg.starts_bounds headerSize hc
  rw [Seg.span_carve, ← Nat.add_assoc] at hup
  replace hup : c + headerSize ≤ z.stop := hup
  have := hout b hb
  omega

/-- Taking a block whose header is in memory, in the list or not. -/
theorem runs_takeBlock_at {v : ℕ} (hlow : heapStart ≤ z.addr) (hup : z.stop ≤ hi)
    (hlt : hi + headerSize + minSplit < 2 ^ 32) (hz : IsHeader s.mem z.addr z.seg v)
    (hfit : z.seg.Fits size) :
    ∃ m, Runs (heapAct B) (InWindow heapStart hi) (takeBlock z.addr size) s (z.addr + headerSize)
        (s.setMem m) ∧
      Holds m z.addr (Seg.carve headerSize minSplit size z.seg) v ∧
      HeadersOnly (Seg.starts headerSize z.addr (Seg.carve headerSize minSplit size z.seg))
        s.mem m := by
  have hstop : z.addr + headerSize + z.size ≤ hi := hup
  have hspans : Spans heapStart hi z.addr [z.seg] := by
    refine ⟨by decide, hlow, ?_, by omega⟩
    rw [Seg.span_cons, Seg.span_nil]
    change z.addr + (headerSize + z.size + 0) ≤ hi
    omega
  have hsmall : z.seg.size + headerSize + minSplit < 2 ^ 32 := by
    change z.size + headerSize + minSplit < _
    omega
  exact runs_takeBlock hspans hz hz.next_lt hfit hsmall

/-- A block that has been removed from the list: its header is still in memory, and it shares no
byte with the headers of the list. -/
structure Removed (hi : ℕ) (L : List Block) (m : Mem) (z : Block) : Prop where
  free : z.free = true
  lower : heapStart ≤ z.addr
  upper : z.stop ≤ hi
  header : ∃ v, IsHeader m z.addr z.seg v
  left : ∀ b ∈ L, b.addr ≠ z.addr
  apart : ∀ b ∈ L, b.addr + headerSize ≤ z.addr ∨ z.stop ≤ b.addr

theorem Ticks.removed (h : Ticks hi live D L s u) (hz : z ∈ Block.reapLost D L) :
    Removed hi (Block.reap D L) u.mem z := by
  obtain ⟨y, hyL, hyz, -⟩ := Block.size_le_of_mem_reapLost hz
  have hy : ∃ b ∈ L, b.addr = z.addr := ⟨y, hyL, hyz⟩
  obtain ⟨x, hxz, hx, ht⟩ := h.exists_lost hy
  obtain ⟨hnot, huniq⟩ := h.before.tiles.eq_of_lost hz
  obtain rfl := hx.elim (fun hx => absurd hxz (hnot x hx)) fun hx => huniq x hx hxz
  obtain ⟨hfree, -, g, hg, -, -, hgstop⟩ := ht.listed.resolve_left fun hmem => hnot x hmem rfl
  refine ⟨hfree, (h.room hy).1, hgstop.trans (h.sound.tiles.bounds hg).2, ⟨_, ht.header⟩, hnot,
    fun b hb => ?_⟩
  obtain ⟨c, hc, hcb⟩ := Block.exists_of_mem_reap hb
  rcases h.placed.eq_or_apart hc hyL with rfl | hap | hap
  · exact absurd (hcb.symm.trans hyz) (hnot b hb)
  · exact Or.inl (by omega)
  · refine Or.inr (ht.within b hb ?_)
    have := headerSize_eq
    omega

/-- The search takes a removed block that it has come to, if it is large enough. -/
theorem Removed.takes (h : Removed hi L s.mem z) (hlt : hi + headerSize + minSplit < 2 ^ 32)
    (hsize : size ≤ z.size) {P : Option ℕ → HeapState σ → Prop}
    (hret : Returns (heapAct B) (searchLoop size (fuel + 1) z.addr) s P) :
    ∃ m, P (some (z.addr + headerSize)) (s.setMem m) ∧
      HeadersOnly (Seg.starts headerSize z.addr (Seg.carve headerSize minSplit size z.seg))
        s.mem m := by
  obtain ⟨v, hheader⟩ := h.header
  have hlow := h.lower
  have hup : z.addr + headerSize + z.size ≤ hi := h.upper
  have hroom : Room heapStart hi z.addr := ⟨hlow, by omega, by omega⟩
  have hfits : z.seg.Fits size := ⟨h.free, hsize⟩
  obtain ⟨m, htake, -, hm⟩ := runs_takeBlock_at (B := B) hlow h.upper hlt hheader hfits
  rw [searchLoop, if_neg (by simp only [heapStart] at hlow; omega)] at hret
  replace hret := hret.of_bind_run (runs_unfit (B := B) loadsIn_inWindow hroom hheader).1
  rw [if_neg (by simpa using hfits)] at hret
  exact ⟨m, returns_ret.1 (hret.of_bind_run htake.1), hm⟩

/-- **A block that is removed from the list is not large enough**, if the search comes to it. -/
theorem Calling.small_of_lost (h : Calling live hi D L s) (h1 : 1 ≤ n) (h2 : n ≤ heapMax)
    (hz : z ∈ Block.reapLost D L) (hbefore : ∀ c ∈ L, c.addr < z.addr → ¬ c.seg.Fits (align8 n))
    (hI : Interrupted (heapAct B) (reaping B D) (attemptLoop (align8 n) (attempts + 1)) s
      (AllottedSafely {b ∈ live | b.1 ∉ D} n)) : z.size < align8 n := by
  have hH := headerSize_eq
  by_contra hsize
  obtain ⟨-, hle, -⟩ := payloadSize_align8 h1 (h2.trans_lt (by decide))
  have htiles := h.sound.tiles
  have hlt : hi + headerSize + minSplit < 2 ^ 32 := by
    have := h.framed.ceiling
    simp only [heapStart, heapMax, headerSize, minSplit] at *
    omega
  obtain ⟨y, hyL, hyz, -⟩ := Block.size_le_of_mem_reapLost hz
  obtain ⟨pre, post, hL⟩ := List.append_of_mem hyL
  have hpre : ∀ c ∈ pre, ¬ c.seg.Fits (align8 n) := fun c hc => by
    have := (hL ▸ htiles).before_block c hc
    exact hbefore c (hL ▸ List.mem_append_left _ hc) (by omega)
  -- the call as far as the block, and the interrupt
  rw [Calling.attemptLoop_succ] at hI
  replace hI := (interrupted_getHead.1 hI).2.of_bind
  rw [h.framed.head] at hI
  obtain ⟨fuel, hat⟩ := (hL ▸ htiles).interrupted_searchLoop le_rfl h.framed.hi_lt (hL ▸ h.linked)
    hpre (h.framed.ceiling.trans_lt (by decide)) hI
  obtain ⟨u, hu, ht, -⟩ := h.exists_ticks (B := B)
  obtain ⟨u', hu', hrest⟩ := hat.first
  obtain rfl := Option.some.inj (hu.symm.trans hu')
  -- the search takes the block, which is not in the list
  have hr := ht.removed hz
  rw [hyz] at hrest
  obtain ⟨m, hdone, hm⟩ := hr.takes hlt (not_lt.1 hsize) hrest
  have hallotted := returns_ret.1 hdone
  have hup : z.addr + headerSize + z.size ≤ hi := hr.upper
  have hlist := hallotted.of_linked (ht.linked.of_takeBlock hm hr.apart)
    (fun b hb => ht.sound.tiles.addr_ne_zero hb) ?_ (by omega) fun b hb => ?_
  · obtain ⟨b, hb, e⟩ := hlist.2 (by omega)
    exact hr.left b hb (Nat.add_right_cancel e)
  · rw [ht.sound.linkOf_eq]
    exact (congrArg HeapState.head ht.state).trans h.framed.head
  · have := hr.apart b hb
    have : z.stop = z.addr + headerSize + z.size := rfl
    omega

end JarvisOS
