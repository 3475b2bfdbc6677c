import JarvisOS.Heap.Serving

/-!
# The search of `kmalloc` with blocks freed under its hands

A search that comes back to the list from a block that has been joined away passes the blocks that
freeing has removed from the list. As long as those up to the block it is going to take are too
small, it takes a block of the list wherever the interrupt comes (`interrupted_searchLoop`).
-/

namespace JarvisOS

open Foundations HeapOp Prog

variable {σ : Type} {B : Backing σ} {tick : HeapState σ → Option (HeapState σ)} {hi n y a fuel : ℕ}
  {s u : HeapState σ} {live : Set (ℕ × ℕ)} {D : List ℕ} {L : List Block}

/-! ## Sizes -/

namespace Block

/-- Joining makes no block smaller. -/
theorem size_le_of_mem_joinedFrom {b c : Block} (h : c ∈ joinedFrom b L) :
    ∃ d ∈ b :: L, d.addr = c.addr ∧ d.size ≤ c.size := by
  induction L generalizing b with
  | nil => exact ⟨c, h, rfl, le_rfl⟩
  | cons d L ih =>
    by_cases hj : b.Joins d
    · rw [joinedFrom_join hj] at h
      obtain ⟨e, he, hec, hle⟩ := ih h
      rcases List.mem_cons.1 he with rfl | he
      · exact ⟨b, List.mem_cons_self, hec, (Nat.le_add_right _ _).trans hle⟩
      · exact ⟨e, List.mem_cons_of_mem _ (List.mem_cons_of_mem _ he), hec, hle⟩
    · rw [joinedFrom_skip hj] at h
      rcases List.mem_cons.1 h with rfl | h
      · exact ⟨c, List.mem_cons_self, rfl, le_rfl⟩
      · obtain ⟨e, he, hec⟩ := ih h
        exact ⟨e, List.mem_cons_of_mem _ he, hec⟩

theorem size_le_of_mem_joined_freeAt {ptr : ℕ} {c : Block} (h : c ∈ joined (freeAt ptr L)) :
    ∃ d ∈ L, d.addr = c.addr ∧ d.size ≤ c.size := by
  obtain ⟨e, he, hec, hle⟩ : ∃ e ∈ freeAt ptr L, e.addr = c.addr ∧ e.size ≤ c.size := by
    generalize freeAt ptr L = M at h
    cases M with
    | nil => exact absurd h List.not_mem_nil
    | cons b M => exact size_le_of_mem_joinedFrom h
  obtain ⟨d, hd, hde, hsize, -⟩ := mem_freeAt he
  exact ⟨d, hd, hde.symm.trans hec, hsize.ge.trans hle⟩

theorem size_le_of_mem_reap {c : Block} (h : c ∈ reap D L) :
    ∃ d ∈ L, d.addr = c.addr ∧ d.size ≤ c.size := by
  induction D generalizing L with
  | nil => exact ⟨c, h, rfl, le_rfl⟩
  | cons p D ih =>
    obtain ⟨e, he, hec, hle⟩ := ih h
    obtain ⟨d, hd, hde, hle'⟩ := size_le_of_mem_joined_freeAt he
    exact ⟨d, hd, hde.trans hec, hle'.trans hle⟩

theorem size_le_of_mem_reapLost {c : Block} (h : c ∈ reapLost D L) :
    ∃ d ∈ L, d.addr = c.addr ∧ d.size ≤ c.size := by
  induction D generalizing L with
  | nil => exact absurd h List.not_mem_nil
  | cons p D ih =>
    rcases List.mem_append.1 h with h | h
    · obtain ⟨d, hd, hdc, hsize, -⟩ := mem_freeAt (List.mem_filter.1 h).1
      exact ⟨d, hd, hdc.symm, hsize.ge⟩
    · obtain ⟨e, he, hec, hle⟩ := ih h
      obtain ⟨d, hd, hde, hle'⟩ := size_le_of_mem_joined_freeAt he
      exact ⟨d, hd, hde.trans hec, hle'.trans hle⟩

end Block

/-! ## After the interrupt -/

/-- The search has ended: with a fresh allocation, or past the end of the list. -/
def Sought (live : Set (ℕ × ℕ)) (n : ℕ) : Option ℕ → HeapState σ → Prop
  | some p, t => p ≠ 0 ∧ Allotted live n p t
  | none, t => ∃ l, HeapInv ⟨t, live⟩ l

/-- The blocks that freeing removes from the list up to `a` are smaller than `size`, and `a` is the
address of a block that stays in the list, or behind it. -/
structure Passable (hi size : ℕ) (D : List ℕ) (L : List Block) (a : ℕ) : Prop where
  small : ∀ z ∈ Block.reapLost D L, z.addr ≤ a → z.size < size
  stays : (∃ p ∈ Block.reap D L, p.addr = a) ∨ hi ≤ a

namespace Ticks

theorem heapInv (h : Ticks hi live D L s u) (hf : Framed hi s) (hbrk : s.brk = hi) :
    HeapInv ⟨u, {b ∈ live | b.1 ∉ D}⟩ ((Block.reap D L).map Block.seg) := by
  refine h.sound.heapInv ?_ ?_ h.linked
  · rw [h.state]
    exact ⟨hf.ready, hf.head, hf.page, hf.ceiling⟩
  · rw [h.state]
    exact hbrk

/-- The list around one of its blocks. -/
theorem exists_split (h : Ticks hi live D L s u) {x : Block} (hx : x ∈ Block.reap D L) :
    ∃ pre post, (Block.reap D L).map Block.seg = pre ++ x.seg :: post ∧
      x.addr = heapStart + Seg.span headerSize pre := by
  obtain ⟨pre, post, e⟩ := List.append_of_mem hx
  refine ⟨pre.map Block.seg, post.map Block.seg, by rw [e, List.map_append, List.map_cons], ?_⟩
  have := h.sound.tiles
  rw [e] at this
  exact this.addr_eq

/-- Where the block is as it is now; if it is not in the list, it has been removed. -/
theorem exists_lost (h : Ticks hi live D L s u) (hy : ∃ b ∈ L, b.addr = y) :
    ∃ x : Block, x.addr = y ∧ (x ∈ Block.reap D L ∨ x ∈ Block.reapLost D L) ∧
      Trail u.mem hi {y | ∃ b ∈ L, b.addr = y} (fun _ => True) (Block.reap D L) x := by
  obtain ⟨x, hxy, hx⟩ := h.trails (· ∈ Block.reapLost D L) (fun _ hb => hb) y hy
  refine ⟨x, hxy, hx.listed.imp_right fun hl => hl.2.1, hx.header, hx.next, hx.within, ?_⟩
  exact hx.listed.imp_right fun ⟨hfree, _, hg⟩ => ⟨hfree, trivial, hg⟩

/-- The blocks on the way back lie in front of every later block of the list. -/
theorem before_of_follow (h : Ticks hi live D L s u) {S : Block → Prop} {c : List Block} {e : ℕ}
    (hc : Tiles e y c) (hz : ∀ z ∈ c, z ∉ Block.reap D L ∧
      Trail u.mem hi {y | ∃ b ∈ L, b.addr = y} S (Block.reap D L) z) {p : Block}
    (hp : p ∈ Block.reap D L) (hle : y ≤ p.addr) : e ≤ p.addr := by
  induction c generalizing y with
  | nil => exact hc ▸ hle
  | cons z c ih =>
    obtain ⟨hzL, hzt⟩ := hz z List.mem_cons_self
    have hne := hzt.addr_ne h.sound.tiles hzL hp
    refine ih hc.2 (fun w hw => hz w (List.mem_cons_of_mem z hw)) (hzt.within p hp ?_)
    exact lt_of_le_of_ne (hc.1.le.trans hle) hne.symm

/-- What is passed on the way back to the list is too small. -/
theorem unfit_of_follow (h : Ticks hi live D L s u) {size : ℕ} (hpass : Passable hi size D L a)
    {c : List Block} {e : ℕ} (hce : Tiles e y c)
    (hc : ∀ z ∈ c, (∃ b ∈ L, b.addr = z.addr) ∧ z ∈ Block.reapLost D L ∧ z ∉ Block.reap D L ∧
      Trail u.mem hi {y | ∃ b ∈ L, b.addr = y} (· ∈ Block.reapLost D L) (Block.reap D L) z)
    (hya : y ≤ a) : ∀ z ∈ c, ¬ z.seg.Fits size := by
  intro z hz hfit
  obtain ⟨hzL, hlost, -⟩ := hc z hz
  have hstop : z.addr + headerSize ≤ z.stop := Nat.le_add_right _ _
  have hle : z.addr ≤ a := by
    have hze := (hce.bounds hz).2
    rcases hpass.stays with ⟨p, hp, rfl⟩ | hhi
    · have := h.before_of_follow hce (fun w hw => (hc w hw).2.2) hp hya
      omega
    · exact (h.room hzL).le.trans hhi
  exact absurd hfit.2 (not_le.2 (hpass.small z hlost hle))

/-- The search takes a block of the list. -/
theorem returns_searchLoop_some (h : Ticks hi live D L s u) (hf : Framed hi s) (hbrk : s.brk = hi)
    (h1 : 1 ≤ n) (h2 : n < 2 ^ 31) {q₁ q₂ : List Block} {b : Block}
    (hlinked : Linked u.mem (q₁ ++ b :: q₂)) (htiles : Tiles hi y (q₁ ++ b :: q₂))
    (hy : heapStart ≤ y) (hlen : (q₁ ++ b :: q₂).length < fuel) (hbL : b ∈ Block.reap D L)
    (hno : ∀ z ∈ q₁, ¬ z.seg.Fits (align8 n)) (hfit : b.seg.Fits (align8 n)) :
    Returns (heapAct B) (searchLoop (align8 n) fuel y) u (Sought {b ∈ live | b.1 ∉ D} n) := by
  have hH := headerSize_eq
  have hinv := h.heapInv hf hbrk
  have haddr := htiles.addr_eq
  obtain ⟨pre, post, hsplit, hb⟩ := h.exists_split hbL
  rw [hsplit] at hinv
  obtain ⟨m, htake, hm, -⟩ := runs_takeBlock_tiled (B := B) hinv.tiled hfit
  have hbrku : u.brk = hi := by
    rw [h.state]
    exact hbrk
  have hholds := htiles.holds.1 hlinked
  have hspan := htiles.span
  rw [List.map_append, List.map_cons] at hholds hspan
  rw [← hb, haddr, hbrku] at htake
  have hrun := runs_searchLoop_some (B := B) (show (q₁.map Block.seg).length < fuel by
    rw [List.length_append] at hlen
    rw [List.length_map]
    omega) hholds ⟨by decide, hy, hspan.le, h.hi_lt⟩ (fun x hx => by
      obtain ⟨z, hz, rfl⟩ := List.mem_map.1 hx
      exact hno z hz) hfit htake
  refine hrun.returns ⟨by omega, ?_⟩
  have := hinv.allotted_carve (n := n) hfit h1 h2 (by decide) hm
  rwa [← hb, haddr] at this

/-- **The search from any header of the list before** takes a block of the list, or comes to its
end. -/
theorem returns_searchLoop (h : Ticks hi live D L s u) (hf : Framed hi s) (hbrk : s.brk = hi)
    (hpass : Passable hi (align8 n) D L a) (h1 : 1 ≤ n) (h2 : n < 2 ^ 31)
    (hy : ∃ b ∈ L, b.addr = y) (hya : y ≤ a) (hfuel : hi < y + headerSize * fuel) :
    Returns (heapAct B) (searchLoop (align8 n) fuel y) u (Sought {b ∈ live | b.1 ∉ D} n) := by
  obtain ⟨c, pre, post, hL, -, hlinked, htiles, -, hne, hc⟩ :=
    h.follow (S := (· ∈ Block.reapLost D L)) (fun _ hb => hb) hy
  have hroom := h.room hy
  have hsmall : ∀ z ∈ c, ¬ z.seg.Fits (align8 n) := by
    obtain ⟨e, hce, -⟩ := Tiles.append_iff.1 htiles
    exact h.unfit_of_follow hpass hce (fun z hz => ⟨(hc z hz).1, (hc z hz).2.2⟩) hya
  have hlen : (c ++ post).length < fuel := by
    have := htiles.length_le
    simp only [headerSize] at this hfuel
    omega
  rcases Seg.firstFit (align8 n) (post.map Block.seg) with hno | ⟨p₁, x, p₂, e, hp₁, hx⟩
  · have hstart : linkTo y ((c ++ post).map Block.seg) 0 = y := by
      obtain ⟨d, M, e⟩ := List.exists_cons_of_ne_nil hne
      rw [e]
      rfl
    have hrun := runs_searchLoop_none (B := B) loadsIn_inWindow
      (by rwa [List.length_map]) (htiles.holds.1 hlinked)
      ⟨by decide, hroom.1, htiles.span.le, h.hi_lt⟩
      fun x (hx : x ∈ _) => show ¬ x.Fits (align8 n) by
        rw [List.map_append, List.mem_append] at hx
        rcases hx with hx | hx
        · obtain ⟨z, hz, rfl⟩ := List.mem_map.1 hx
          exact hsmall z hz
        · exact hno x hx
    rw [hstart] at hrun
    exact hrun.returns ⟨_, h.heapInv hf hbrk⟩
  · obtain ⟨q₁, rest, rfl, rfl, hrest⟩ := List.map_eq_append_iff.1 e
    obtain ⟨b, q₂, rfl, rfl, rfl⟩ := List.map_eq_cons_iff.1 hrest
    rw [← List.append_assoc] at hlinked htiles hlen
    refine h.returns_searchLoop_some hf hbrk h1 h2 hlinked htiles hroom.1 hlen ?_ ?_ hx
    · rw [hL]
      exact List.mem_append_right _ (List.mem_append_right _ List.mem_cons_self)
    · exact List.forall_mem_append.2 ⟨hsmall, fun z hz => hp₁ z.seg (List.mem_map_of_mem hz)⟩

/-- The block at `y` is in the list and fits. -/
def FitsNow (size : ℕ) (D : List ℕ) (L : List Block) (y : ℕ) : Prop :=
  ∃ x ∈ Block.reap D L, x.addr = y ∧ x.seg.Fits size

/-- `unfit` after it has read the flag of a block that is free. -/
theorem returns_unfit_free (h : Ticks hi live D L s u) {size : ℕ} (hpass : Passable hi size D L a)
    {x : Block} (hy : ∃ b ∈ L, b.addr = x.addr) (hxa : x.addr ≤ a)
    (hx : x ∈ Block.reap D L ∨ x ∈ Block.reapLost D L)
    (ht : Trail u.mem hi {y | ∃ b ∈ L, b.addr = y} (fun _ => True) (Block.reap D L) x)
    (hxf : x.free = true) (hnext : x.addr < a ∨ size ≤ x.size) :
    Returns (heapAct B) (do let bsize ← getSize x.addr; return decide (bsize < size)) u
      fun skip t => t = u ∧ (skip = true → x.addr < a) ∧
        (skip = false → FitsNow size D L x.addr) := by
  refine (returns_getSize (h.room hy) ht.header).2 (returns_ret.2 ⟨rfl, fun hsize => ?_,
    fun hsize => ?_⟩)
  · exact hnext.resolve_right (not_le.2 (of_decide_eq_true hsize))
  · have hle : size ≤ x.size := not_lt.1 (of_decide_eq_false hsize)
    have hmem := hx.resolve_right fun hx => absurd (hpass.small x hx hxa) (not_lt.2 hle)
    exact ⟨x, hmem, rfl, hxf, hle⟩

/-- **`unfit` with the interrupt anywhere.** -/
theorem interrupted_unfit (h : Ticks hi live D L s u) (htick : tick s = some u)
    (hl : Linked s.mem L) {size : ℕ} (hpass : Passable hi size D L a) {b : Block} (hb : b ∈ L)
    (hba : b.addr ≤ a) (hnext : b.addr < a ∨ b.seg.Fits size) :
    Interrupted (heapAct B) tick (unfit b.addr size) s fun skip t =>
      t = u ∧ (skip = true → b.addr < a) ∧ (skip = false → FitsNow size D L b.addr) := by
  have hy : ∃ d ∈ L, d.addr = b.addr := ⟨b, hb, rfl⟩
  have hroom := h.room hy
  obtain ⟨-, post, -, hhead⟩ := hl.header hb
  obtain ⟨x, hxb, hx, ht⟩ := h.exists_lost hy
  -- the block has not become smaller
  have hbx : b.size ≤ x.size := by
    obtain ⟨d, hd, hdx, hle⟩ := hx.elim Block.size_le_of_mem_reap Block.size_le_of_mem_reapLost
    rwa [h.placed.eq_of_addr hd hb (hdx.trans hxb)] at hle
  -- what is read of the block if it is free by then
  have hfree : x.free = true → Returns (heapAct B)
      (do let bsize ← getSize b.addr; return decide (bsize < size)) u fun skip t =>
        t = u ∧ (skip = true → b.addr < a) ∧ (skip = false → FitsNow size D L b.addr) :=
    fun hxf => by
      have := h.returns_unfit_free (B := B) hpass (hxb ▸ hy) (hxb ▸ hba) hx ht hxf
        (hxb ▸ hnext.imp_right fun hfit => hfit.2.trans hbx)
      rwa [hxb] at this
  refine (interrupted_getFree hroom hhead).2 ⟨⟨u, htick, ?_⟩, ?_⟩
  · rw [returns_getFree hroom (hxb ▸ ht.header)]
    by_cases hxf : x.free = true
    · rw [if_neg (show ¬ (if x.seg.free = true then 1 else 0) = 0 by simp [Block.seg, hxf])]
      exact hfree hxf
    · rw [if_pos (show (if x.seg.free = true then 1 else 0) = 0 by simp [Block.seg, hxf])]
      refine returns_ret.2 ⟨rfl, fun _ => hnext.resolve_right fun hfit => ?_, fun h => ?_⟩
      · exact hxf (h.free_trail hb hfit.1 hxb ht)
      · exact absurd h.symm Bool.false_ne_true
  · by_cases hbf : b.free = true
    · rw [if_neg (show ¬ (if b.seg.free = true then 1 else 0) = 0 by simp [Block.seg, hbf])]
      have hxf := h.free_trail hb hbf hxb ht
      refine (interrupted_getSize hroom hhead).2 ⟨⟨u, htick, hfree hxf⟩, ?_⟩
      refine interrupted_ret.2 ⟨u, htick, rfl, fun hsize => ?_, fun hsize => ?_⟩
      · exact hnext.resolve_right fun hfit => absurd hfit.2 (not_le.2 (of_decide_eq_true hsize))
      · have hle : size ≤ b.size := not_lt.1 (of_decide_eq_false hsize)
        have hmem := hx.resolve_right fun hx =>
          absurd (hpass.small x hx (hxb ▸ hba)) (not_lt.2 (hle.trans hbx))
        exact ⟨x, hmem, hxb, hxf, hle.trans hbx⟩
    · rw [if_pos (show (if b.seg.free = true then 1 else 0) = 0 by simp [Block.seg, hbf])]
      refine interrupted_ret.2 ⟨u, htick, rfl, fun _ => hnext.resolve_right fun hfit => ?_,
        fun h => ?_⟩
      · exact hbf hfit.1
      · exact absurd h.symm Bool.false_ne_true

/-- The search goes on where the block is linked to. -/
theorem returns_searchLoop_next (h : Ticks hi live D L s u) (hf : Framed hi s) (hbrk : s.brk = hi)
    (hpass : Passable hi (align8 n) D L a) (h1 : 1 ≤ n) (h2 : n < 2 ^ 31)
    (hy : ∃ b ∈ L, b.addr = y) (hya : y < a) (hfuel : hi < y + headerSize * (fuel + 1)) :
    Returns (heapAct B) (getNext y >>= fun next => searchLoop (align8 n) fuel next) u
      (Sought {b ∈ live | b.1 ∉ D} n) := by
  obtain ⟨x, rfl, hx⟩ := h.exists_trail hy
  rw [returns_getNext (h.room hy) hx.header]
  have hrest := Block.fuel_stop hfuel
  split_ifs with hend
  · obtain ⟨fuel, rfl⟩ := exists_fuel hend.le hrest
    rw [searchLoop, if_pos rfl]
    exact returns_ret.2 ⟨_, h.heapInv hf hbrk⟩
  · have hnext := hx.next.resolve_left hend
    refine h.returns_searchLoop hf hbrk hpass h1 h2 hnext ?_ hrest
    rcases hpass.stays with ⟨p, hp, rfl⟩ | hhi
    · exact hx.within p hp hya
    · exact (h.room hnext).le.trans hhi

/-- **The rest of an iteration**, after `unfit` has answered. -/
theorem returns_take (h : Ticks hi live D L s u) (hf : Framed hi s) (hbrk : s.brk = hi)
    (hpass : Passable hi (align8 n) D L a) (h1 : 1 ≤ n) (h2 : n < 2 ^ 31)
    (hy : ∃ b ∈ L, b.addr = y) (hfuel : hi < y + headerSize * (fuel + 1)) {skip : Bool}
    (hnext : skip = true → y < a) (hskip : skip = false → FitsNow (align8 n) D L y) :
    Returns (heapAct B)
      (if skip = true then do let next ← getNext y; searchLoop (align8 n) fuel next
        else do let p ← takeBlock y (align8 n); return some p) u
      (Sought {b ∈ live | b.1 ∉ D} n) := by
  split_ifs with hs
  · exact h.returns_searchLoop_next hf hbrk hpass h1 h2 hy (hnext hs) hfuel
  · obtain ⟨x, hxL, rfl, hfit⟩ := hskip (Bool.eq_false_of_not_eq_true hs)
    have hinv := h.heapInv hf hbrk
    obtain ⟨pre, post, e, hx⟩ := h.exists_split hxL
    rw [e] at hinv
    rw [returns_bind, hx]
    exact (hinv.returns_takeBlock hfit h1 h2).mono fun r t hr => returns_ret.2 hr

/-- One iteration of the search with the interrupt anywhere. -/
theorem interrupted_searchLoop_step (h : Ticks hi live D L s u) (htick : tick s = some u)
    (hf : Framed hi s) (hbrk : s.brk = hi) (hl : Linked s.mem L)
    (hpass : Passable hi (align8 n) D L a) (h1 : 1 ≤ n) (h2 : n < 2 ^ 31)
    (htake : (∃ b ∈ L, b.addr = a) → Interrupted (heapAct B) tick
      (do let p ← takeBlock a (align8 n); return some p) s (Sought {b ∈ live | b.1 ∉ D} n))
    (hfit : ∀ b ∈ L, b.addr ≤ a → (b.seg.Fits (align8 n) ↔ b.addr = a))
    {pre post : List Block} {b : Block} (hL : L = pre ++ b :: post)
    (hfuel : hi < b.addr + headerSize * fuel) (hba : b.addr ≤ a)
    (hrest : b.addr < a → ∀ fuel, hi < b.stop + headerSize * fuel →
      Interrupted (heapAct B) tick (searchLoop (align8 n) fuel (linkOf post)) s
        (Sought {b ∈ live | b.1 ∉ D} n)) :
    Interrupted (heapAct B) tick (searchLoop (align8 n) fuel b.addr) s
      (Sought {b ∈ live | b.1 ∉ D} n) := by
  have hb : b ∈ L := hL ▸ List.mem_append_right _ List.mem_cons_self
  have hy : ∃ d ∈ L, d.addr = b.addr := ⟨b, hb, rfl⟩
  have hroom := h.room hy
  have hhead := (hL ▸ hl : Linked s.mem (pre ++ b :: post)).of_append.1
  obtain ⟨fuel, rfl⟩ := exists_fuel hroom.le hfuel
  have hiff := hfit b hb hba
  have hnext : b.addr < a ∨ b.seg.Fits (align8 n) := (lt_or_eq_of_le hba).imp_right hiff.2
  rw [searchLoop, if_neg hroom.ne_zero]
  have hunfit := h.interrupted_unfit (B := B) htick hl hpass hb hba hnext
  refine Interrupted.bind (runs_unfit loadsIn_inWindow hroom hhead).1
    (hunfit.mono fun skip t hskip => ?_) ?_
  · obtain ⟨ht, hlt, hnow⟩ := hskip
    rw [ht]
    exact h.returns_take hf hbrk hpass h1 h2 hy hfuel hlt hnow
  · by_cases hfits : b.seg.Fits (align8 n)
    · rw [if_neg (by simpa using hfits), hiff.1 hfits]
      exact htake ⟨b, hb, hiff.1 hfits⟩
    · have hlt := hnext.resolve_right hfits
      rw [if_pos (by simpa using hfits)]
      refine (interrupted_getNext hroom hhead).2 ⟨⟨u, htick, ?_⟩, hrest hlt fuel ?_⟩
      · exact h.returns_searchLoop_next hf hbrk hpass h1 h2 hy hlt hfuel
      · exact Block.fuel_stop hfuel

/-- **The search with the interrupt anywhere**, as far as the block at `a` that it takes. -/
theorem interrupted_searchLoop (h : Ticks hi live D L s u) (htick : tick s = some u)
    (hf : Framed hi s) (hbrk : s.brk = hi) (hl : Linked s.mem L)
    (hpass : Passable hi (align8 n) D L a) (h1 : 1 ≤ n) (h2 : n < 2 ^ 31)
    (htake : (∃ b ∈ L, b.addr = a) → Interrupted (heapAct B) tick
      (do let p ← takeBlock a (align8 n); return some p) s (Sought {b ∈ live | b.1 ∉ D} n))
    (hfit : ∀ b ∈ L, b.addr ≤ a → (b.seg.Fits (align8 n) ↔ b.addr = a))
    {pre post : List Block} {b : Block} (hL : L = pre ++ b :: post)
    (hfuel : hi < b.addr + headerSize * fuel) (hba : b.addr ≤ a) :
    Interrupted (heapAct B) tick (searchLoop (align8 n) fuel b.addr) s
      (Sought {b ∈ live | b.1 ∉ D} n) := by
  induction post generalizing pre b fuel with
  | nil =>
    have hb : b ∈ L := hL ▸ List.mem_append_right _ List.mem_cons_self
    refine h.interrupted_searchLoop_step htick hf hbrk hl hpass h1 h2 htake hfit hL hfuel hba
      fun _ fuel hfuel => ?_
    obtain ⟨fuel, rfl⟩ := exists_fuel (h.before.tiles.bounds hb).2 hfuel
    rw [linkOf_nil, searchLoop, if_pos rfl]
    exact interrupted_ret.2 ⟨u, htick, _, h.heapInv hf hbrk⟩
  | cons c post ih =>
    refine h.interrupted_searchLoop_step htick hf hbrk hl hpass h1 h2 htake hfit hL hfuel hba
      fun hlt fuel hfuel => ?_
    have hb : b ∈ L := hL ▸ List.mem_append_right _ List.mem_cons_self
    have htiles := h.before.tiles
    rw [hL] at htiles
    obtain ⟨-, -, -, hcb, -⟩ := Tiles.append_iff.1 htiles
    refine ih (show _ = (pre ++ [b]) ++ _ by rw [hL, List.append_assoc]; rfl) (hcb ▸ hfuel) ?_
    rw [hcb]
    rcases hpass.stays with ⟨p, hp, rfl⟩ | hhi
    · obtain ⟨d, hd, e⟩ := Block.exists_of_mem_reap hp
      rw [← e] at hlt ⊢
      exact h.before.tiles.within hb hd hlt
    · exact (h.before.tiles.bounds hb).2.trans hhi

end Ticks

end JarvisOS
