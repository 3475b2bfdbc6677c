import JarvisOS.Heap.GrowInterrupted

/-!
# Appending a block with others freed under its hands

The walk of `extend_heap` to the last block ends there also when it has been interrupted, as long as
the last block stays in use; and then there is nothing to join to the block that is appended
(`interrupted_appendBlock`).
-/

namespace JarvisOS

open Foundations HeapOp Prog

variable {σ : Type} {B : Backing σ} {tick : HeapState σ → Option (HeapState σ)}
  {hi n pages y fuel : ℕ} {g s t u : HeapState σ} {live : Set (ℕ × ℕ)} {D : List ℕ}
  {L init pre post : List Block} {z : Block}

/-! ## The walk to the last block -/

namespace Ticks

/-- The last block of the list is a block of the list before. -/
theorem le_last (h : Ticks hi live D L s u) (hL : L = init ++ [z]) (hy : ∃ b ∈ L, b.addr = y) :
    y ≤ z.addr := by
  obtain ⟨b, hb, rfl⟩ := hy
  have htiles := h.before.tiles
  rw [hL] at htiles hb
  obtain ⟨e, hinit, hz, -⟩ := Tiles.append_iff.1 htiles
  rcases List.mem_append.1 hb with hb | hb
  · have := (hinit.bounds hb).2
    have : b.addr + headerSize ≤ b.stop := Nat.le_add_right _ _
    omega
  · rw [List.mem_singleton.1 hb]

/-- **The walk from any header of the list before** ends at the last block. -/
theorem returns_tailLoop (h : Ticks hi live D L s u) (hL : L = init ++ [z]) (hz : Block.Kept D z)
    (hy : ∃ b ∈ L, b.addr = y) (hfuel : hi < y + headerSize * fuel) :
    Returns (heapAct B) (tailLoop fuel y) u fun r t => t = u ∧ r = z.addr := by
  have hreap : Block.reap D L = Block.reap D init ++ [z] := by
    rw [hL, Block.reap_append (by rintro p ⟨⟩; exact hz), Block.reap_cons_kept hz, Block.reap_nil]
  have hzL : z ∈ Block.reap D L := by
    rw [hreap]
    exact List.mem_append_right _ List.mem_cons_self
  obtain ⟨c, pre, post, hpp, hlink, hlinked, htiles, -, hne, hc⟩ :=
    h.follow (S := fun _ => True) (fun _ _ => trivial) hy
  have hzhi : z.addr + headerSize ≤ hi := (h.room ⟨z, by simp [hL], rfl⟩).2.1
  -- the way back does not end before it has come to the list
  obtain ⟨post, rfl⟩ : ∃ post', post = post' ++ [z] := by
    rcases List.eq_nil_or_concat post with rfl | ⟨post', p, rfl⟩
    · rw [List.append_nil] at htiles
      have := h.before_of_follow htiles (fun w hw => (hc w hw).2.2.2) hzL (h.le_last hL hy)
      rw [headerSize_eq] at hzhi
      omega
    · rw [hreap, List.concat_eq_append, ← List.append_assoc] at hpp
      obtain rfl := List.singleton_inj.1 (List.append_inj_right' hpp rfl)
      exact ⟨post', List.concat_eq_append⟩
  have hholds := htiles.holds.1 hlinked
  have hspans : Spans heapStart hi y ((c ++ (post ++ [z])).map Block.seg) :=
    ⟨by decide, (h.room hy).1, htiles.span.le, h.hi_lt⟩
  have hlen := htiles.length_le
  have hseg : (c ++ (post ++ [z])).map Block.seg = (c ++ post).map Block.seg ++ [z.seg] := by simp
  rw [hseg] at hholds hspans
  have hrun := runs_tailLoop (B := B) _ z.seg (show _ < fuel by
    rw [List.length_map]
    simp only [List.length_append, List.length_singleton, headerSize] at hlen hfuel ⊢
    omega) hholds hspans
  refine hrun.returns ⟨rfl, ?_⟩
  rw [← List.append_assoc] at htiles
  exact htiles.addr_eq.symm

/-- The interrupt between the two reads of the link of a block that is not the last: it is not,
whatever it has been joined to. -/
theorem returns_tailLoop_next (h : Ticks hi live D L s u) (hL : L = init ++ [z])
    (hz : Block.Kept D z) (hy : ∃ b ∈ L, b.addr = y) (hlt : y < z.addr)
    (hfuel : hi < y + headerSize * (fuel + 1)) :
    Returns (heapAct B) (getNext y >>= fun next => tailLoop fuel next) u
      fun r t => t = u ∧ r = z.addr := by
  obtain ⟨x, rfl, hx⟩ := h.exists_trail hy
  have hzL : z ∈ Block.reap D L := by
    rw [hL, Block.reap_append (by rintro p ⟨⟩; exact hz), Block.reap_cons_kept hz]
    exact List.mem_append_right _ List.mem_cons_self
  have hxz := hx.within z hzL hlt
  have hzhi := (h.room ⟨z, by simp [hL], rfl⟩).2.1
  rw [headerSize_eq] at hzhi
  rw [returns_getNext (h.room hy) hx.header, if_neg (by omega)]
  exact h.returns_tailLoop hL hz (hx.next.resolve_left (by omega)) (Block.fuel_stop hfuel)

/-- **The walk with the interrupt anywhere.** -/
theorem interrupted_tailLoop (h : Ticks hi live D L s u) (htick : tick s = some u)
    (hl : Linked s.mem L) (hL : L = init ++ [z]) (hz : Block.Kept D z) {b : Block}
    (hpp : L = pre ++ b :: post) (hfuel : hi < b.addr + headerSize * fuel) :
    Interrupted (heapAct B) tick (tailLoop fuel b.addr) s fun r t => t = u ∧ r = z.addr := by
  induction post generalizing pre b fuel with
  | nil =>
    have hb : ∃ d ∈ L, d.addr = b.addr :=
      ⟨b, hpp ▸ List.mem_append_right _ List.mem_cons_self, rfl⟩
    have hroom := h.room hb
    obtain ⟨fuel, rfl⟩ := exists_fuel hroom.le hfuel
    have hfirst := h.returns_tailLoop (B := B) hL hz hb hfuel
    rw [tailLoop] at hfirst ⊢
    refine (interrupted_getNext hroom (hpp ▸ hl : Linked s.mem (pre ++ [b])).of_append.1).2
      ⟨⟨u, htick, hfirst⟩, ?_⟩
    rw [hL] at hpp
    obtain rfl := List.singleton_inj.1 (List.append_inj_right' hpp rfl)
    exact interrupted_ret.2 ⟨u, htick, rfl, rfl⟩
  | cons c post ih =>
    have hb : ∃ d ∈ L, d.addr = b.addr :=
      ⟨b, hpp ▸ List.mem_append_right _ List.mem_cons_self, rfl⟩
    have hc : ∃ d ∈ L, d.addr = c.addr :=
      ⟨c, hpp ▸ List.mem_append_right _ (List.mem_cons_of_mem _ List.mem_cons_self), rfl⟩
    have hroom := h.room hb
    obtain ⟨fuel, rfl⟩ := exists_fuel hroom.le hfuel
    have hhead := (hpp ▸ hl : Linked s.mem (pre ++ b :: c :: post)).of_append.1
    have htiles := h.before.tiles
    rw [hpp] at htiles
    obtain ⟨-, -, -, hbc, -⟩ := Tiles.append_iff.1 htiles
    have hfirst := h.returns_tailLoop (B := B) hL hz hb hfuel
    rw [tailLoop] at hfirst ⊢
    refine (interrupted_getNext hroom hhead).2 ⟨⟨u, htick, hfirst⟩, ?_⟩
    rw [linkOf_cons, if_neg (h.room hc).ne_zero]
    refine (interrupted_getNext hroom hhead).2 ⟨⟨u, htick, ?_⟩, ?_⟩
    · have hlt : b.addr + headerSize ≤ b.stop := Nat.le_add_right _ _
      rw [← hbc, headerSize_eq] at hlt
      exact h.returns_tailLoop_next hL hz hb (by have := h.le_last hL hc; omega) hfuel
    · refine ih (show _ = (pre ++ [b]) ++ _ by rw [hpp, List.append_assoc]; rfl) ?_
      exact hbc ▸ Block.fuel_stop hfuel

end Ticks

/-! ## The new block -/

/-- The block made of the pages from `hi` on. -/
def freshAt (hi pages : ℕ) : Block := ⟨hi, pages * pageSize - headerSize, true⟩

theorem freshAt_stop (h : 4 ≤ pages) : (freshAt hi pages).stop = hi + pages * pageSize := by
  have := span_freshBlock h
  simp only [Seg.span_cons, Seg.span_nil, freshBlock] at this
  simp only [Block.stop, freshAt]
  omega

/-- The list with the new block is sound, if the block before it is in use. -/
theorem SoundList.append_fresh (h : SoundList hi live L) (hlast : ∀ z ∈ L.getLast?, z.free = false)
    (hroom : 4 ≤ pages) : SoundList (hi + pages * pageSize) live (L ++ [freshAt hi pages]) := by
  refine ⟨Tiles.append_iff.2 ⟨hi, h.tiles, rfl, freshAt_stop hroom⟩, by
    simp, fun b hb => ?_, ?_, ?_⟩
  · rcases List.mem_append.1 hb with hb | hb
    · exact h.sizes b hb
    · rw [List.mem_singleton.1 hb]
      simp only [PayloadSize, freshAt, pageSize, headerSize]
      omega
  · rw [List.map_append]
    refine List.isChain_append.2 ⟨h.merged, List.isChain_singleton _, fun x hx _ _ hf => ?_⟩
    rw [List.getLast?_map] at hx
    obtain ⟨z, hz, rfl⟩ := Option.map_eq_some_iff.1 hx
    rw [show z.seg.free = false from hlast z hz] at hf
    exact Bool.false_ne_true hf.1
  · rw [List.map_append]
    refine h.accounts.congr ?_
    rw [Seg.inUse_append, List.map_singleton, Seg.inUse_cons_free headerSize rfl, Seg.inUse_nil,
      List.append_nil]

/-- The header of the new block, and the link to it. -/
theorem Linked.append_fresh {m : Mem} (h : Linked m (init ++ [z]))
    (hr : IsHeader m hi (freshBlock pages) 0) (htiles : Tiles hi heapStart (init ++ [z]))
    (hlt : hi < 2 ^ 32) :
    Linked (m.write32 (z.addr + 8) hi) (init ++ [z] ++ [freshAt hi pages]) := by
  have hH := headerSize_eq
  obtain ⟨e, hinit, hz, hend⟩ := Tiles.append_iff.1 htiles
  have hzhi : z.addr + headerSize ≤ hi := by
    have : z.stop = hi := hend
    have : z.addr + headerSize ≤ z.stop := Nat.le_add_right _ _
    omega
  rw [List.append_assoc, List.singleton_append]
  refine h.replace rfl (fun c hc y _ hy => ?_) ⟨h.of_append.1.setNext hlt, ?_, trivial⟩
  · have := (hinit.bounds hc).2
    have : c.addr + headerSize ≤ c.stop := Nat.le_add_right _ _
    exact Mem.write32_apply_of_disjoint _ _ (by omega)
  · exact hr.write_of_disjoint (by omega)

/-- The heap has grown, and is about to get its new block. -/
structure Appending (live : Set (ℕ × ℕ)) (hi pages : ℕ) (D : List ℕ) (L : List Block)
    (g : HeapState σ) : Prop where
  growing : Growing live hi D L g
  brk : g.brk = hi + pages * pageSize
  room : 4 ≤ pages
  ceiling : hi + pages * pageSize ≤ heapStart + heapMax

namespace Appending

theorem framed (h : Appending live hi pages D L g) {m : Mem} :
    Framed (hi + pages * pageSize) (g.setMem m) :=
  ⟨h.growing.framed.ready, h.growing.framed.head,
    Nat.dvd_add h.growing.framed.page (Nat.dvd_mul_left _ _), h.ceiling⟩

/-- Bytes from `hi` on do not count. -/
theorem setMem (h : Appending live hi pages D L g) {m : Mem}
    (hm : ∀ y, y < hi ∨ hi + headerSize ≤ y → m y = g.mem y) :
    Appending live hi pages D L (g.setMem m) :=
  ⟨h.growing.of_beyond ⟨rfl, rfl, rfl, fun y hy => hm y (Or.inl hy)⟩, h.brk, h.room, h.ceiling⟩

theorem brk_lt (h : Appending live hi pages D L g) : hi + pages * pageSize < 2 ^ 32 :=
  h.ceiling.trans_lt window_lt

theorem fresh_room (h : Appending live hi pages D L g) :
    Room heapStart (hi + pages * pageSize) hi := by
  have hfresh := span_freshBlock h.room
  rw [Seg.span_cons, Seg.span_nil] at hfresh
  exact ⟨h.growing.sound.tiles.le, by omega, h.brk_lt⟩

theorem fresh_size (h : Appending live hi pages D L g) :
    sub32 (sub32 (hi + pages * pageSize) hi) headerSize = (freshBlock pages).size := by
  have hfresh := span_freshBlock h.room
  rw [Seg.span_cons, Seg.span_nil] at hfresh
  have hlt := h.brk_lt
  rw [sub32_of_le (a := hi + pages * pageSize) (by omega) (by omega),
    sub32_of_le (by omega) (by omega)]
  omega

theorem fresh_header (h : Appending live hi pages D L g) (m : Mem) :
    IsHeader (IsHeader.put m hi (freshBlock pages) 0) hi (freshBlock pages) 0 := by
  refine IsHeader.of_put m hi (freshBlock pages) ?_ (by decide)
  have hfresh := span_freshBlock h.room
  rw [Seg.span_cons, Seg.span_nil] at hfresh
  have := h.brk_lt
  omega

/-- The list with the new block, joined to the last one if that is free. -/
theorem sound_joined (h : Appending live hi pages D L g) :
    SoundList (hi + pages * pageSize) live (Block.joined (L ++ [freshAt hi pages])) := by
  have hs := h.growing.sound
  refine SoundList.of_joined (Tiles.append_iff.2 ⟨hi, hs.tiles, rfl, freshAt_stop h.room⟩)
    (by simp) (fun b hb => ?_) ?_
  · rcases List.mem_append.1 hb with hb | hb
    · exact hs.sizes b hb
    · have := h.room
      rw [List.mem_singleton.1 hb]
      simp only [PayloadSize, freshAt, pageSize, headerSize]
      omega
  · refine hs.accounts.congr ?_
    rw [Seg.inUse_merge, List.map_append, Seg.inUse_append, List.map_singleton,
      Seg.inUse_cons_free headerSize rfl, Seg.inUse_nil, List.append_nil]

/-- **`extend_heap` appends the block**, whatever the last block is. -/
theorem exists_joined (h : Appending live hi pages D L g) : ∃ m,
    run (heapAct B) (appendBlock hi) g = some (1, g.setMem m) ∧
      Linked m (Block.joined (L ++ [freshAt hi pages])) := by
  obtain ⟨hf, hs, hl, -⟩ := h.growing
  have hinv : HeapInv ⟨{ g with brk := hi }, live⟩ (L.map Block.seg) :=
    hs.heapInv ⟨hf.ready, hf.head, hf.page, hf.ceiling⟩ rfl hl
  obtain ⟨m₁, m, hrun, -, hlist, -⟩ :=
    runs_appendBlock (B := B) hinv.tiled (g := g) h.room h.ceiling
    hf.head h.brk fun _ _ => rfl
  have htiles : Tiles (hi + pages * pageSize) heapStart (L ++ [freshAt hi pages]) :=
    Tiles.append_iff.2 ⟨hi, hs.tiles, rfl, freshAt_stop h.room⟩
  have hmap := htiles.map_seg_joined
  rw [List.map_append] at hmap
  exact ⟨m, hrun.1, htiles.joined.holds.2 (hmap ▸ hlist)⟩

theorem returns_appendBlock (h : Appending live hi pages D L g) :
    Returns (heapAct B) (appendBlock hi) g fun r t => r = 1 ∧ ∃ l, HeapInv ⟨t, live⟩ l := by
  obtain ⟨m, hrun, hl⟩ := h.exists_joined (B := B)
  exact ⟨1, _, hrun, rfl, _, h.sound_joined.heapInv h.framed h.brk hl⟩

/-- To a list whose last block is in use nothing is joined. -/
theorem exists_appended (h : Appending live hi pages D L g)
    (hlast : ∀ z ∈ L.getLast?, z.free = false) : ∃ m, run (heapAct B) (appendBlock hi) g =
      some (1, g.setMem m) ∧ Linked m (L ++ [freshAt hi pages]) := by
  obtain ⟨m, hrun, hl⟩ := h.exists_joined (B := B)
  rw [Block.joined_of_merged (h.growing.sound.append_fresh hlast h.room).merged] at hl
  exact ⟨m, hrun, hl⟩

/-- The list with the new block, if the last one is in use. -/
theorem sound_fresh (h : Appending live hi pages D (init ++ [z]) g) (hz : z.free = false) :
    SoundList (hi + pages * pageSize) live (init ++ [z] ++ [freshAt hi pages]) := by
  refine h.growing.sound.append_fresh (fun w hw => ?_) h.room
  rw [List.getLast?_append, List.getLast?_singleton] at hw
  obtain rfl := Option.some.inj hw
  exact hz

theorem last_room (h : Appending live hi pages D (init ++ [z]) g) : Room heapStart hi z.addr :=
  (h.growing.sound.tiles.placed le_rfl h.growing.framed.hi_lt).of_append.room

/-- The end of `extend_heap`, when the last block is in use. -/
theorem returns_link (h : Appending live hi pages D (init ++ [z]) g) (hz : z.free = false)
    (hr : IsHeader g.mem hi (freshBlock pages) 0) :
    Returns (heapAct B) (do let _ ← setNext z.addr hi; coalesce; return 1) g
      fun r t => r = 1 ∧ ∃ l, HeapInv ⟨t, live⟩ l := by
  have hs := h.sound_fresh hz
  have hl := h.growing.linked.append_fresh hr h.growing.sound.tiles h.growing.framed.hi_lt
  rw [returns_setNext h.last_room]
  obtain ⟨m, hrun, hm⟩ := hs.exists_coalesced (B := B) h.framed hl
  exact Returns.bind_of_run hrun (returns_ret.2 ⟨rfl, _, hs.heapInv h.framed h.brk hm⟩)

/-- The walk to the last block. -/
theorem run_tailLoop (h : Appending live hi pages D (init ++ [z]) g) :
    run (heapAct B) (tailLoop listFuel heapStart) g = some (z.addr, g) := by
  obtain ⟨hf, hs, hl, -⟩ := h.growing
  have hholds := hs.tiles.holds.1 hl
  have hspan := hs.tiles.span
  have hseg : (init ++ [z]).map Block.seg = init.map Block.seg ++ [z.seg] := by simp
  rw [hseg] at hholds hspan
  have hlen := (hs.tiles.placed le_rfl hf.hi_lt).length_lt hf.ceiling
  rw [hs.tiles.addr_eq]
  refine (runs_tailLoop (B := B) (init.map Block.seg) z.seg ?_ hholds
    ⟨by decide, le_rfl, hspan.le, hf.hi_lt⟩).1
  rw [List.length_append] at hlen
  rw [List.length_map]
  omega

/-- `appendBlock`, action by action. -/
theorem appendBlock_eq (oldBrk : ℕ) : appendBlock oldBrk =
    setMagic oldBrk blockMagic >>= fun _ =>
    perform getBrk >>= fun brk =>
    setSize oldBrk (sub32 (sub32 brk oldBrk) headerSize) >>= fun _ =>
    setNext oldBrk 0 >>= fun _ =>
    setFree oldBrk 1 >>= fun _ =>
    perform getHead >>= fun head =>
    tailLoop listFuel head >>= fun tail =>
    setNext tail oldBrk >>= fun _ => coalesce >>= fun _ => ret 1 := rfl

/-- **Interrupted while the new header is written**, the list is as before below it. -/
theorem exists_ticks (h : Appending live hi pages D L g) {m : Mem}
    (hm : ∀ y, y < hi ∨ hi + headerSize ≤ y → m y = g.mem y) :
    ∃ u, reaping B D (g.setMem m) = some u ∧ Ticks hi live D L (g.setMem m) u ∧
      Appending {b ∈ live | b.1 ∉ D} hi pages [] (Block.reap D L) u ∧
      ∀ k ≤ 12, u.mem.read32 (hi + k) = m.read32 (hi + k) := by
  have hle : hi ≤ (g.setMem m).brk := h.brk.symm ▸ Nat.le_add_right _ _
  obtain ⟨u, hu, ht, hgu, hbu⟩ := (h.setMem hm).growing.exists_ticks (B := B) hle
  refine ⟨u, hu, ht, ⟨hgu, hbu.trans h.brk, h.room, h.ceiling⟩, fun k hk => ?_⟩
  refine Mem.read32_congr fun y h1 h2 => ht.frame y fun a ha => ?_
  obtain ⟨c, hc, rfl⟩ := List.mem_map.1 ha
  have := (h.growing.sound.tiles.bounds hc).2
  have : c.addr + headerSize ≤ c.stop := Nat.le_add_right _ _
  omega

theorem shielded (h : Appending live hi pages D L g) : Shielded (reaping B D) hi
    (Appending {b ∈ live | b.1 ∉ D} hi pages [] (Block.reap D L)) g := fun m hm => by
  obtain ⟨u, hu, -, ha, hk⟩ := h.exists_ticks (B := B) (m := m) hm
  exact ⟨u, hu, ha, hk⟩

/-- The interrupt when the header of the new block is there. -/
theorem exists_ticks_fresh (h : Appending live hi pages D (init ++ [z]) g) (hz : Block.Kept D z)
    (hr : IsHeader g.mem hi (freshBlock pages) 0) :
    ∃ u, reaping B D g = some u ∧ Ticks hi live D (init ++ [z]) g u ∧
      Appending {b ∈ live | b.1 ∉ D} hi pages [] (Block.reap D init ++ [z]) u ∧
      IsHeader u.mem hi (freshBlock pages) 0 := by
  have hreap : Block.reap D (init ++ [z]) = Block.reap D init ++ [z] := by
    rw [Block.reap_append (by rintro p ⟨⟩; exact hz), Block.reap_cons_kept hz, Block.reap_nil]
  obtain ⟨u, hu, ht, ha, hw⟩ := h.exists_ticks (B := B) (m := g.mem) fun _ _ => rfl
  rw [hreap] at ha
  exact ⟨u, hu, ht, ha, (hw 0 (by decide)).trans hr.magic, (hw 4 (by decide)).trans hr.size,
    (hw 8 (by decide)).trans hr.next, (hw 12 (by decide)).trans hr.free⟩

/-- **Linking the new block with the interrupt anywhere.** -/
theorem interrupted_link (h : Appending live hi pages D (init ++ [z]) g) (hz : Block.Kept D z)
    (hr : IsHeader g.mem hi (freshBlock pages) 0) :
    Interrupted (heapAct B) (reaping B D) (do let _ ← setNext z.addr hi; coalesce; return 1) g
      fun r t => r = 1 ∧ ∃ l, HeapInv ⟨t, {b ∈ live | b.1 ∉ D}⟩ l := by
  obtain ⟨u, hu, -, hau, hru⟩ := h.exists_ticks_fresh (B := B) hz hr
  refine (interrupted_setNext h.last_room).2 ⟨⟨u, hu, hau.returns_link hz.1 hru⟩, ?_⟩
  -- the list with the new block
  have hs := h.sound_fresh hz.1
  have hl := h.growing.linked.append_fresh hr h.growing.sound.tiles h.growing.framed.hi_lt
  have hD : Stacks D (init ++ [z] ++ [freshAt hi pages]) := by
    refine ⟨fun d hd => ?_, h.growing.used.nodup⟩
    obtain ⟨b, hb, hrest⟩ := h.growing.used.used d hd
    exact ⟨b, List.mem_append_left _ hb, hrest⟩
  refine (hs.interrupted_coalesce (s := g.setMem (g.mem.write32 (z.addr + 8) hi)) h.framed
    h.brk.ge hl hD).mono ?_
  rintro r t ⟨hr, ht, hlinked⟩
  rw [ht]
  exact ⟨hr, _, (hs.reap h.brk_lt hD).heapInv h.framed h.brk hlinked⟩

/-- **From the walk on with the interrupt anywhere.** -/
theorem interrupted_walk (h : Appending live hi pages D (init ++ [z]) g) (hz : Block.Kept D z)
    (hr : IsHeader g.mem hi (freshBlock pages) 0) :
    Interrupted (heapAct B) (reaping B D) (tailLoop listFuel heapStart >>= fun tail =>
        setNext tail hi >>= fun _ => coalesce >>= fun _ => ret 1) g
      fun r t => r = 1 ∧ ∃ l, HeapInv ⟨t, {b ∈ live | b.1 ∉ D}⟩ l := by
  have hs := h.growing.sound
  obtain ⟨b, L', e, hb⟩ := hs.exists_first
  have hfuel : hi < b.addr + headerSize * listFuel := by
    rw [hb]
    exact h.growing.framed.ceiling.trans_lt (by decide)
  obtain ⟨u, hu, ht, ha, hru⟩ := h.exists_ticks_fresh (B := B) hz hr
  have hwalk := ht.interrupted_tailLoop (B := B) hu h.growing.linked rfl hz
    (show _ = [] ++ _ from e) hfuel
  rw [hb] at hwalk
  refine Interrupted.bind h.run_tailLoop (hwalk.mono ?_) (h.interrupted_link hz hr)
  rintro r t ⟨rfl, rfl⟩
  exact ha.returns_link hz.1 hru

/-- **`appendBlock` with the interrupt anywhere**, behind a block in use. -/
theorem interrupted_appendBlock (h : Appending live hi pages D (init ++ [z]) g)
    (hz : Block.Kept D z) :
    Interrupted (heapAct B) (reaping B D) (appendBlock hi) g
      fun r t => r = 1 ∧ ∃ l, HeapInv ⟨t, {b ∈ live | b.1 ∉ D}⟩ l := by
  have hroom := h.fresh_room
  have hsize := h.fresh_size
  have hshield := h.shielded (B := B)
  have hp : ∀ u, Appending {b ∈ live | b.1 ∉ D} hi pages [] (Block.reap D (init ++ [z])) u →
      Returns (heapAct B) (appendBlock hi) u
        fun r t => r = 1 ∧ ∃ l, HeapInv ⟨t, {b ∈ live | b.1 ∉ D}⟩ l :=
    fun u hu => hu.returns_appendBlock
  rw [appendBlock_eq] at hp ⊢
  obtain ⟨u, hu, ha, -⟩ := hshield.words [] (by simp) (by simp)
  refine interrupted_setMagic_again ⟨u, hu, ha⟩ hp fun hp => ?_
  -- the magic number is written
  obtain ⟨u, hu, ha, hws⟩ := hshield.words [(0, blockMagic)] (by simp) (by simp)
  have hI := And.intro ha (hws (0, blockMagic) (by simp))
  refine interrupted_getBrk_again ⟨u, hu, hI⟩ (fun u hu => hu.1.brk.trans h.brk.symm) hp
    fun hp => ?_
  rw [HeapState.setMem_brk, h.brk, hsize] at hp ⊢
  refine interrupted_setSize_again hroom ⟨u, hu, hI⟩ hp fun hp => ?_
  -- so is the size
  obtain ⟨u, hu, ha, hws⟩ := hshield.words [(0, blockMagic), (4, (freshBlock pages).size)] (by simp)
    (by simp)
  have hI := And.intro (And.intro ha (hws (0, blockMagic) (by simp)))
    (hws (4, (freshBlock pages).size) (by simp))
  refine interrupted_setNext_again hroom ⟨u, hu, hI⟩ hp fun hp => ?_
  -- and the link
  obtain ⟨u, hu, ha, hws⟩ := hshield.words
    [(0, blockMagic), (4, (freshBlock pages).size), (8, 0)] (by simp) (by simp)
  have hI := And.intro (And.intro (And.intro ha (hws (0, blockMagic) (by simp)))
    (hws (4, (freshBlock pages).size) (by simp))) (hws (8, 0) (by simp))
  refine interrupted_setFree_again hroom ⟨u, hu, hI⟩ hp fun hp => ?_
  -- the header is complete
  obtain ⟨u, hu, ha, hws⟩ := hshield.words
    [(0, blockMagic), (4, (freshBlock pages).size), (8, 0), (12, 1)] (by simp) (by simp)
  have hI := And.intro (And.intro (And.intro (And.intro ha (hws (0, blockMagic) (by simp)))
    (hws (4, (freshBlock pages).size) (by simp))) (hws (8, 0) (by simp))) (hws (12, 1) (by simp))
  refine interrupted_getHead.2 ⟨⟨u, hu, hp u hI⟩, ?_⟩
  have hput : Appending live hi pages D (init ++ [z])
      (g.setMem (IsHeader.put g.mem hi (freshBlock pages) 0)) := h.setMem fun y hy =>
    IsHeader.put_apply_of_disjoint g.mem (freshBlock pages) 0 hy
  have hwalk := hput.interrupted_walk (B := B) hz (h.fresh_header g.mem)
  rw [← h.growing.framed.head] at hwalk
  exact hwalk

end Appending

end JarvisOS
