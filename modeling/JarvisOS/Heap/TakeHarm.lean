import JarvisOS.Heap.SearchHarm

/-!
# Where an interrupt harms a split

If the block behind the one that is split is freed just before `kmalloc` reads the link to it, the
two are joined, and the link that is read is that of the joint block (`Stopped.exists_longer`): what
was split off ends in front of a gap (`Stopped.unsafe_split`).
-/

namespace JarvisOS

open Foundations HeapOp Prog

variable {σ : Type} {B : Backing σ} {hi n attempts : ℕ} {s : HeapState σ}
  {live : Set (ℕ × ℕ)} {D : List ℕ} {L pre post : List Block} {b c : Block}

namespace Stopped

/-- The call as far as the link of the block. -/
theorem interrupted_getNext (h : Stopped B live n hi D pre b post s)
    (hsplit : align8 n + headerSize + minSplit ≤ b.size)
    {tick : HeapState σ → Option (HeapState σ)} {Q : ℕ → HeapState σ → Prop}
    (hI : Interrupted (heapAct B) tick (takeBlock b.addr (align8 n)) s Q) :
    Interrupted (heapAct B) tick (getNext b.addr >>= fun next =>
        setNext (back n b).addr next >>= fun _ =>
        setFree (back n b).addr 1 >>= fun _ =>
        setSize b.addr (align8 n) >>= fun _ =>
        setNext b.addr (back n b).addr >>= fun _ =>
        setFree b.addr 0 >>= fun _ => ret (u32 (b.addr + headerSize)))
      (s.setMem (s.mem.writeWords (back n b).addr [(0, blockMagic), (4, (back n b).size)])) Q := by
  have hback : (back n b).addr = b.addr + headerSize + align8 n := rfl
  have hroom := h.room
  have hhead := h.linked.of_append.1
  have hhead₁ := hhead.write_of_disjoint (v := blockMagic) (c := (back n b).addr) (by omega)
  rw [h.takeBlock_eq hsplit] at hI
  replace hI := ((interrupted_getSize hroom hhead).1 hI).2
  rw [if_pos (show b.seg.size ≥ align8 n + headerSize + minSplit from hsplit)] at hI
  replace hI := (interrupted_setMagic.1 hI).2
  replace hI := ((interrupted_getSize hroom hhead₁).1 hI).2
  rw [h.back_size hsplit] at hI
  exact ((interrupted_setSize (h.back_room hsplit)).1 hI).2

/-- The interrupt has freed the block behind `b`: in place of `b` the list has a longer block. -/
theorem exists_longer (h : Stopped B live n hi D pre b (c :: post) s)
    (hc : c.addr + headerSize ∈ D) {m : Mem}
    (hm : ∀ y, y < b.addr + headerSize ∨ b.stop ≤ y → m y = s.mem y) :
    ∃ A g R u, JarvisOS.reaping B D (s.setMem m) = some u ∧ u = s.setMem u.mem ∧
      Linked u.mem (A ++ g :: R) ∧ Tiles hi heapStart (A ++ g :: R) ∧ g.addr = b.addr ∧
      g.free = true ∧ b.stop < g.stop ∧
      ∀ y, b.addr + headerSize ≤ y → y < b.stop → u.mem y = m y := by
  have hbL : b ∈ pre ++ b :: c :: post := List.mem_append_right _ List.mem_cons_self
  have hs := h.setMem hm
  obtain ⟨u, hu, ht⟩ := hs.exists_ticks
  obtain ⟨g, hg, hgb⟩ := h.stays
  have hsize : b.size ≤ g.size := by
    obtain ⟨d, hd, hdg, hle⟩ := Block.size_le_of_mem_reap hg
    rwa [ht.placed.eq_of_addr hd hbL (hdg.trans hgb)] at hle
  have hgfree : g.free = true := by
    obtain ⟨d, hd, hdg, hf⟩ := Block.addr_of_mem_reap hg
    exact hf (ht.placed.eq_of_addr hd hbL (hdg.trans hgb) ▸ h.fits.1)
  obtain ⟨A, R, e⟩ := List.append_of_mem hg
  have htiles := ht.sound.tiles
  have hmerged := ht.sound.merged
  have hlinked := ht.linked
  rw [e] at htiles hmerged hlinked
  obtain ⟨f, hA, -, hR⟩ := Tiles.append_iff.1 htiles
  have hbc : b.stop = c.addr := by
    obtain ⟨d, -, -, hc, -⟩ := Tiles.append_iff.1 h.sound.tiles
    exact hc.symm
  -- what stands behind the block is in use, and so it is not the block that has been freed
  have hgap : b.stop ≠ g.stop := fun hgs => by
    rw [← hgs, hbc] at hR
    cases R with
    | nil =>
      have hcL : c ∈ pre ++ b :: c :: post := by simp
      have hend : c.addr + headerSize + c.size ≤ hi := (h.sound.tiles.bounds hcL).2
      have hchi : c.addr = hi := hR
      rw [headerSize_eq] at hend
      omega
    | cons d R =>
      have hd : d.addr = c.addr := hR.1
      have hdR : d ∈ Block.reap D (pre ++ b :: c :: post) := e ▸ by simp
      have hdu : d.free = false := by
        rw [List.map_append] at hmerged
        have := (List.isChain_cons_cons.1 (List.isChain_append.1 hmerged).2.1).1
        exact Bool.eq_false_of_not_eq_true fun hdf => this ⟨hgfree, hdf⟩
      exact (Block.used_of_mem_reap hdR hdu).2 (hd ▸ hc)
  have hgstop : b.stop ≤ g.stop := by
    unfold Block.stop
    omega
  exact ⟨A, g, R, u, hu, ht.state, hlinked, htiles, hgb, hgfree, lt_of_le_of_ne hgstop hgap,
    hs.payload_of_ticks ht⟩

/-- A longer block is split as if it had the size of `b`. -/
theorem linked_short {A R : List Block} {g : Block} {m : Mem} (hl : Linked m (A ++ g :: R))
    (ht : Tiles hi heapStart (A ++ g :: R)) (hgb : g.addr = b.addr) (hgf : g.free = true)
    (hstop : b.stop < g.stop) (hsplit : align8 n + headerSize + minSplit ≤ b.size)
    (hlt : b.stop < 2 ^ 32) (hmagic : m.read32 ((back n b).addr + 0) = blockMagic)
    (hsize : m.read32 ((back n b).addr + 4) = (back n b).size) :
    Linked (((((m.write32 ((back n b).addr + 8) (linkOf R)).write32
      ((back n b).addr + 12) 1).write32 (b.addr + 4) (align8 n)).write32
      (b.addr + 8) (back n b).addr).write32 (b.addr + 12) 0)
      (A ++ taken n b :: back n b :: R) := by
  have hH := headerSize_eq
  have hback : (back n b).addr = b.addr + headerSize + align8 n := rfl
  have hb : b.stop = b.addr + headerSize + b.size := rfl
  have hA : ∀ d ∈ A, d.addr + headerSize ≤ b.addr := hgb ▸ ht.before_block
  have hR : ∀ d ∈ R, b.stop ≤ d.addr := fun d hd => hstop.le.trans (ht.after_block d hd)
  have hheadg : IsHeader m b.addr g.seg (linkOf R) := hgb ▸ hl.of_append.1
  set m₁ := ((m.write32 ((back n b).addr + 8) (linkOf R)).write32 ((back n b).addr + 12) 1).write32
    (b.addr + 4) (align8 n) with hm₁
  have hout : ∀ y, y < b.addr ∨ b.stop ≤ y → m₁ y = m y := fun y hy => by
    rw [hm₁, Mem.write32_apply_of_disjoint _ _ (by omega),
      Mem.write32_apply_of_disjoint _ _ (by omega), Mem.write32_apply_of_disjoint _ _ (by omega)]
  have hfront : Linked m₁ (A ++ front n b :: R) := by
    refine hl.replace hgb.symm (fun d hd y _ hy => hout y (Or.inl ?_)) ⟨?_, ?_⟩
    · have := hA d hd
      omega
    · have hwritten := (hheadg.write_of_disjoint (c := (back n b).addr + 8) (v := linkOf R)
        (by omega)).write_of_disjoint (c := (back n b).addr + 12) (v := 1) (by omega)
      have := hwritten.setSize (v := align8 n) (by omega)
      rwa [show g.seg.free = true from hgf] at this
    · exact hl.of_append.2.congr fun d hd y hy _ => hout y (Or.inr ((hR d hd).trans hy))
  have hrear : IsHeader m₁ (back n b).addr (back n b).seg (linkOf R) := by
    refine IsHeader.write_of_disjoint ⟨?_, ?_, ?_, Mem.read32_write32_same _ _ _⟩ (by omega)
    · rw [Mem.read32_write32_of_disjoint _ _ (by omega),
        Mem.read32_write32_of_disjoint _ _ (by omega)]
      exact hmagic
    · rw [Mem.read32_write32_of_disjoint _ _ (by omega),
        Mem.read32_write32_of_disjoint _ _ (by omega)]
      exact hsize
    · rw [Mem.read32_write32_of_disjoint _ _ (by omega), Mem.read32_write32_same]
      exact u32_of_lt hheadg.next_lt
  refine linked_handed hfront hrear hA (fun d hd => ?_) (by omega)
  have := hR d hd
  omega

/-- The rest of such a split ends where `b` did, but the next block lies behind a gap. -/
theorem not_allotted_short (h : Stopped B live n hi D pre b post s) {A R : List Block} {g : Block}
    {t : HeapState σ} {m : Mem} {live' : Set (ℕ × ℕ)} (ht : Tiles hi heapStart (A ++ g :: R))
    (hgb : g.addr = b.addr) (hlong : b.stop < g.stop)
    (hsplit : align8 n + headerSize + minSplit ≤ b.size) (hbrk : t.brk = hi)
    (hhead : t.head = heapStart) (hl : Linked m (A ++ taken n b :: back n b :: R)) :
    ¬ AllottedSafely live' n (b.addr + headerSize) (t.setMem m) := by
  intro hsafe
  have hle := h.stop_le
  have hlt := h.framed.hi_lt
  obtain ⟨-, hn, -⟩ := payloadSize_align8 h.pos h.small
  have hback : (back n b).addr = b.addr + headerSize + align8 n := rfl
  have hstop : b.stop = b.addr + headerSize + b.size := rfl
  have hA : ∀ d ∈ A, d.addr + headerSize ≤ b.addr := hgb ▸ ht.before_block
  have hR : ∀ d ∈ R, b.stop ≤ d.addr := fun d hd => hlong.le.trans (ht.after_block d hd)
  have hlist := hsafe.of_linked hl ?_ ?_ (by omega) ?_
  · obtain ⟨f, -, -, -, hR'⟩ := Tiles.append_iff.1 hlist.1
    obtain ⟨f', -, -, hRt⟩ := Tiles.append_iff.1 ht
    change Tiles t.brk (back n b).stop R at hR'
    rw [hbrk, back_stop hsplit] at hR'
    exact hlong.ne (hR'.start_unique hRt)
  · have hzero : 0 < heapStart := by decide
    refine List.forall_mem_append.2 ⟨fun d hd => ?_, List.forall_mem_cons.2 ⟨?_,
      List.forall_mem_cons.2 ⟨?_, fun d hd => ?_⟩⟩⟩
    · exact ht.addr_ne_zero (List.mem_append_left _ hd)
    · exact (hzero.trans_le h.room.1).ne'
    · exact (hzero.trans_le (h.back_room hsplit).1).ne'
    · exact ht.addr_ne_zero (List.mem_append_right _ (List.mem_cons_of_mem _ hd))
  · have hlink := ht.linkOf_eq (by simp)
    refine hhead.trans (hlink.symm.trans ?_)
    cases A with
    | nil => exact hgb
    | cons d A => rfl
  · refine List.forall_mem_append.2 ⟨fun d hd => Or.inl ?_, List.forall_mem_cons.2 ⟨Or.inl le_rfl,
      List.forall_mem_cons.2 ⟨Or.inr ?_, fun d hd => Or.inr ?_⟩⟩⟩
    · have := hA d hd
      omega
    · omega
    · have := hR d hd
      omega

/-- **A split in front of a stack** is not safe wherever the interrupt comes. -/
theorem unsafe_split (h : Stopped B live n hi D pre b (c :: post) s)
    (hsplit : align8 n + headerSize + minSplit ≤ b.size) (hc : c.addr + headerSize ∈ D) :
    ¬ Interrupted (heapAct B) (JarvisOS.reaping B D) (takeBlock b.addr (align8 n)) s
      (AllottedSafely {b ∈ live | b.1 ∉ D} n) := by
  intro hI
  have hM : minSplit = 16 := rfl
  have hlt := h.framed.hi_lt
  have hle := h.stop_le
  have hback : (back n b).addr = b.addr + headerSize + align8 n := rfl
  have hstop : b.stop = b.addr + headerSize + b.size := rfl
  have hroom := h.room
  have hrest := h.back_room hsplit
  set ws := [(0, blockMagic), (4, (back n b).size)] with hws
  have hws4 : ∀ w ∈ ws, w.1 ≤ 4 := by simp [hws]
  -- the interrupt comes before the link of the block is read
  obtain ⟨A, g, R, u, hu, hus, hl, ht, hgb, hgf, hlong, hkeep⟩ :=
    h.exists_longer (m := s.mem.writeWords (back n b).addr ws) hc fun y hy =>
      Mem.writeWords_apply_of_disjoint _ fun w hw => by
        have := hws4 w hw
        omega
  obtain ⟨u', hu', hret⟩ := (h.interrupted_getNext hsplit hI).first
  obtain rfl := Option.some.inj (hu.symm.trans hu')
  have hword : ∀ w ∈ ws, u.mem.read32 ((back n b).addr + w.1) = u32 w.2 := fun w hw => by
    have := hws4 w hw
    rw [← Mem.read32_writeWords s.mem (by simp [hws]) hw]
    exact Mem.read32_congr fun y h1 h2 => hkeep y (by omega) (by omega)
  -- the call goes on
  have hheadg : IsHeader u.mem b.addr g.seg (linkOf R) := hgb ▸ hl.of_append.1
  rw [returns_getNext hroom hheadg, returns_setNext hrest, returns_setFree hrest,
    returns_setSize hroom, returns_setNext hroom, returns_setFree hroom,
    u32_of_lt (n := b.addr + headerSize) (by omega)] at hret
  simp only [HeapState.setMem_mem, HeapState.setMem_setMem] at hret
  have hsize : (back n b).size < 2 ^ 32 := by
    change b.size - align8 n - headerSize < _
    omega
  have hfinal := linked_short hl ht hgb hgf hlong hsplit (by omega)
    ((hword (0, blockMagic) (by simp [hws])).trans (by decide))
    ((hword (4, (back n b).size) (by simp [hws])).trans (u32_of_lt hsize))
  exact h.not_allotted_short ht hgb hlong hsplit ((congrArg HeapState.brk hus).trans h.brk)
    ((congrArg HeapState.head hus).trans h.framed.head) hfinal (returns_ret.1 hret)

end Stopped

/-- **What a request that finds a block needs**, wherever the interrupt comes. -/
theorem Calling.clear_of_found (h : Calling live hi D L s) (h1 : 1 ≤ n) (h2 : n ≤ heapMax)
    (hL : L = pre ++ b :: post) (hpre : ∀ c ∈ pre, ¬ c.seg.Fits (align8 n))
    (hfit : b.seg.Fits (align8 n))
    (hI : Interrupted (heapAct B) (reaping B D) (attemptLoop (align8 n) (attempts + 1)) s
      (AllottedSafely {b ∈ live | b.1 ∉ D} n)) :
    (∀ z ∈ Block.reapLost D L, z.addr ≤ b.addr → z.size < align8 n) ∧
      (align8 n + headerSize + minSplit ≤ b.size → ∀ c ∈ post.head?, c.addr + headerSize ∉ D) := by
  have hlt := h.framed.hi_lt
  have hp := h.sound.tiles.placed le_rfl hlt
  have hsmall : ∀ z ∈ Block.reapLost D L, z.addr ≤ b.addr → z.size < align8 n := by
    refine fun z hz hzb => h.small_of_lost h1 h2 hz (fun c hc hcz => ?_) hI
    rw [hL] at hc
    rcases List.mem_append.1 hc with hc | hc
    · exact hpre c hc
    · have hcb : b.addr ≤ c.addr := by
        rcases List.mem_cons.1 hc with rfl | hc
        · exact le_rfl
        · have := (List.pairwise_cons.1 (List.pairwise_append.1 (hL ▸ hp.apart)).2.1).1 c hc
          omega
      omega
  refine ⟨hsmall, fun hsplit c hc hcD => ?_⟩
  obtain ⟨post, rfl⟩ : ∃ post', post = c :: post' := by
    cases post with
    | nil => cases hc
    | cons d post =>
      obtain rfl := Option.some.inj hc
      exact ⟨post, rfl⟩
  have hs := h.stopped B h1 h2 hL hfit hsmall
  -- the call as far as the block
  rw [Calling.attemptLoop_succ] at hI
  replace hI := (interrupted_getHead.1 hI).2.of_bind
  rw [h.framed.head] at hI
  obtain ⟨fuel, hat⟩ := (hL ▸ h.sound.tiles).interrupted_searchLoop le_rfl hlt (hL ▸ h.linked) hpre
    (h.framed.ceiling.trans_lt (by decide)) hI
  have hroom := (hL ▸ hp : Placed heapStart hi (pre ++ b :: c :: post)).of_append.room
  have hhead := hs.linked.of_append.1
  rw [searchLoop, if_neg (hL ▸ hp).of_append.addr_ne_zero] at hat
  replace hat := hat.of_bind_run (runs_unfit (B := B) loadsIn_inWindow hroom hhead).1
  rw [if_neg (by simpa using hfit)] at hat
  refine hs.unsafe_split hsplit hcD (hat.of_bind.mono fun r t hr => ?_)
  have hdone := returns_ret.1 hr
  exact returns_ret.1 hdone

end JarvisOS
