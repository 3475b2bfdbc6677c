import JarvisOS.Heap.TakeHarm

/-!
# Where an interrupt harms a growth

When no block fits and the heap grows, the last block has to stay in use. If it is freed, the new
block is joined to it, and the search takes it nevertheless; if it is free, so is the block that the
two have become when the block in front of them is freed (`Calling.kept_of_growth`); and if that one
is in use, `coalesce` counts the new block twice.
-/

namespace JarvisOS

open Foundations HeapOp Prog

variable {σ : Type} {B : Backing σ} {hi e n pages attempts : ℕ} {s t g : HeapState σ}
  {live : Set (ℕ × ℕ)} {D : List ℕ} {L pre post init : List Block} {b v w z : Block}

/-! ## The last search -/

/-- Segments in memory in front of a list. -/
theorem linked_blocksFrom_append {m : Mem} {a : ℕ} {l : List Seg} :
    Linked m (blocksFrom a l ++ L) ↔ Holds m a l (linkOf L) ∧ Linked m L := by
  induction l generalizing a with
  | nil => exact (and_iff_right trivial).symm
  | cons x l ih =>
    have hlink : linkOf (blocksFrom (a + headerSize + x.size) l ++ L) =
        linkTo (a + headerSize + x.size) l (linkOf L) := by cases l <;> rfl
    rw [blocksFrom_cons, List.cons_append, Linked, ih, hlink, Holds, and_assoc]
    exact Iff.rfl

/-- A list whose block `b` has been taken. -/
theorem Linked.carve {size : ℕ} {m m' : Mem} (hl : Linked m (pre ++ b :: post))
    (ht : Tiles e heapStart (pre ++ b :: post))
    (hc : Holds m' b.addr (Seg.carve headerSize minSplit size b.seg) (linkOf post))
    (hm : HeadersOnly (Seg.starts headerSize b.addr (Seg.carve headerSize minSplit size b.seg))
      m m') :
    Linked m' (pre ++ (blocksFrom b.addr (Seg.carve headerSize minSplit size b.seg) ++ post)) := by
  obtain ⟨f, hpre, hb, hpost⟩ := Tiles.append_iff.1 ht
  have hleft : ∀ c ∈ pre, c.addr + headerSize ≤ b.addr := fun c hc => by
    have := (hpre.bounds hc).2
    exact hb ▸ (Nat.le_add_right _ _).trans this
  have hright : Linked m' post := hl.of_append.2.of_takeBlock hm fun c hc =>
    Or.inr (hpost.bounds hc).1
  have hmid := linked_blocksFrom_append.2 ⟨hc, hright⟩
  obtain ⟨x, l, e⟩ : ∃ x l, Seg.carve headerSize minSplit size b.seg = x :: l := by
    unfold Seg.carve
    split_ifs
    · exact ⟨_, _, rfl⟩
    · exact ⟨_, _, rfl⟩
  rw [e, blocksFrom_cons, List.cons_append] at hmid ⊢
  refine hl.replace rfl (fun c hc y h1 h2 => hm y fun d hd => Or.inl ?_) hmid
  have := (Seg.starts_bounds headerSize hd).1
  have := hleft c hc
  omega

/-- The headers of a list in which a block has been taken are not in the new payload. -/
theorem Tiles.apart_of_carve {size : ℕ} (ht : Tiles e heapStart (pre ++ b :: post))
    (hfit : b.seg.Fits size) :
    ∀ c ∈ pre ++ (blocksFrom b.addr (Seg.carve headerSize minSplit size b.seg) ++ post),
      c.addr + headerSize ≤ b.addr + headerSize ∨ b.addr + headerSize + size ≤ c.addr := by
  have hsize : size ≤ b.size := hfit.2
  have hstop : b.stop = b.addr + headerSize + b.size := rfl
  refine List.forall_mem_append.2 ⟨fun c hc => Or.inl ?_, List.forall_mem_append.2 ⟨?_,
    fun c hc => Or.inr ?_⟩⟩
  · have := ht.before_block c hc
    omega
  · unfold Seg.carve
    split_ifs
    · exact List.forall_mem_cons.2 ⟨Or.inl le_rfl, List.forall_mem_singleton.2 (Or.inr le_rfl)⟩
    · exact List.forall_mem_singleton.2 (Or.inl le_rfl)
  · have := ht.after_block c hc
    omega

/-- **An attempt that finds a block** leaves a list that ends where the list did. -/
theorem AllottedSafely.brk_eq (hl : Linked t.mem L) (ht : Tiles e heapStart L)
    (hlt : e + headerSize + minSplit < 2 ^ 32) (hlen : L.length < listFuel)
    (hhead : t.head = heapStart) (h1 : 1 ≤ n) (h2 : n ≤ heapMax)
    (hfit : ∃ c ∈ L, c.seg.Fits (align8 n))
    (h : Returns (heapAct B) (attemptLoop (align8 n) (attempts + 1)) t (AllottedSafely live n)) :
    t.brk = e := by
  obtain ⟨-, hle, -⟩ := payloadSize_align8 h1 (h2.trans_lt (by decide))
  obtain ⟨A, b, C, -, rfl, hA, hb⟩ := (Block.firstFit_cases (align8 n) L).resolve_right
    fun hno => by
      obtain ⟨c, hc, hcf⟩ := hfit
      exact hno.2 c hc hcf
  have hbL : b ∈ A ++ b :: C := List.mem_append_right _ List.mem_cons_self
  have hbounds := ht.bounds hbL
  -- the search takes the block
  obtain ⟨m, htake, hcarve, hm⟩ := runs_takeBlock_at (B := B) hbounds.1 hbounds.2 hlt
    hl.of_append.1 hb
  have hholds := ht.holds.1 hl
  have hspan := ht.span
  rw [List.map_append, List.map_cons] at hholds hspan
  have hsearch := runs_searchLoop_some (B := B) (show (A.map Block.seg).length < listFuel by
    rw [List.length_append] at hlen
    rw [List.length_map]
    omega) hholds ⟨by decide, le_rfl, hspan.le, by omega⟩ (fun y hy => by
      obtain ⟨c, hc, rfl⟩ := List.mem_map.1 hy
      exact hA c hc) hb (ht.addr_eq ▸ htake)
  rw [Calling.attemptLoop_succ, returns_getHead, hhead] at h
  have hallotted := returns_ret.1 (h.of_bind_run hsearch.1)
  -- and the list still ends where it did
  have hfinal := Linked.carve hl ht hcarve hm
  have htiles := ht.carve minSplit (align8 n)
  have hapart := ht.apart_of_carve hb
  have haddr := ht.addr_eq
  have hfits : align8 n ≤ b.size := hb.2
  have hstop : b.stop = b.addr + headerSize + b.size := rfl
  have hne : A ++ (blocksFrom b.addr (Seg.carve headerSize minSplit (align8 n) b.seg) ++ C) ≠ [] :=
    fun h0 => by
      rw [h0] at htiles
      have : heapStart = e := htiles
      rw [headerSize_eq] at hstop
      omega
  refine (hallotted.of_linked hfinal (fun c hc => htiles.addr_ne_zero hc) ?_ (by omega)
    fun c hc => ?_).1.unique htiles
  · rw [htiles.linkOf_eq hne]
    exact hhead
  · have := hapart c hc
    omega

/-! ## The block in front of the last one -/

/-- **The block in front of the last one is not freed**, if the last one is what the search
takes. -/
theorem Calling.unfreed_before_last (h : Calling live hi D (pre ++ [v, w]) s) (h1 : 1 ≤ n)
    (h2 : n ≤ heapMax) (hno : ∀ c ∈ pre ++ [v], ¬ c.seg.Fits (align8 n))
    (hw : w.seg.Fits (align8 n))
    (hI : Interrupted (heapAct B) (reaping B D) (attemptLoop (align8 n) (attempts + 1)) s
      (AllottedSafely {b ∈ live | b.1 ∉ D} n)) : v.addr + headerSize ∉ D := by
  intro hv
  have hp := h.sound.tiles.placed le_rfl h.framed.hi_lt
  have hwL : w ∈ pre ++ [v, w] := by simp
  obtain ⟨u, -, ht, -⟩ := h.exists_ticks (B := B)
  obtain ⟨x, hxw, hx, -⟩ := ht.exists_lost ⟨w, hwL, rfl⟩
  have hlost := hx.resolve_left fun hx =>
    h.sound.tiles.lost_of_freed (List.ne_nil_of_mem hv) (Or.inr hv) hw.1 x hx hxw
  obtain ⟨d, hd, hdx, hle⟩ := Block.size_le_of_mem_reapLost hlost
  rw [hp.eq_of_addr hd hwL (hdx.trans hxw)] at hle
  refine absurd (hw.2.trans hle) (not_le.2 (h.small_of_lost h1 h2 hlost (fun c hc hcx => ?_) hI))
  rw [show pre ++ [v, w] = pre ++ [v] ++ [w] by simp] at hc
  rcases List.mem_append.1 hc with hc | hc
  · exact hno c hc
  · rw [List.mem_singleton.1 hc, hxw] at hcx
    exact absurd hcx (lt_irrefl _)

/-! ## As far as the new block -/

/-- A request that finds nothing, when the heap can grow: the mapping has grown. -/
theorem Calling.interrupted_growth {tick : HeapState σ → Option (HeapState σ)}
    {Q : ℕ → HeapState σ → Prop} (h : Calling live hi D L s) (h1 : 1 ≤ n) (h2 : n ≤ heapMax)
    (hno : ∀ c ∈ L, ¬ c.seg.Fits (align8 n))
    (hceil : s.brk + growthPages (align8 n) * pageSize ≤ heapStart + heapMax)
    (hgrants : B.grants (growthPages (align8 n)) s.brk s.env = growthPages (align8 n))
    (hI : Interrupted (heapAct B) tick (attemptLoop (align8 n) 2) s Q) :
    ∃ g, Appending live hi (growthPages (align8 n)) D L g ∧ (∀ y < hi, g.mem y = s.mem y) ∧
      Interrupted (heapAct B) tick (appendBlock hi >>= fun r =>
        if r = 0 then ret 0 else attemptLoop (align8 n) 1) g Q := by
  obtain ⟨-, -, hsize⟩ := payloadSize_align8 h1 (h2.trans_lt (by decide))
  obtain ⟨hpages, hroom, -, -⟩ := growthPages_spec hsize
  have htiled := h.heapInv.tiled
  have hlt := growth_lt_of_ceiling (h.brk.trans_le h.framed.ceiling) h2
  rw [h.brk] at hlt
  set pages := growthPages (align8 n)
  -- the search finds nothing
  rw [Calling.attemptLoop_succ] at hI
  replace hI := (interrupted_getHead.1 hI).2
  rw [h.framed.head] at hI
  replace hI := hI.of_bind_run (h.run_searchLoop_none hno)
  -- the mapping grows
  have hall : (mapPages B pages s.brk s).1 = pages := (mapPages_fst ..).trans hgrants
  have hgrow := (runs_growMapping_granted hpages (htiled.tiles ▸ Nat.le_add_right _ _) hceil hall).1
  change Interrupted (heapAct B) tick (extendHeap (align8 n) >>= fun extended =>
    if extended = 0 then ret 0 else attemptLoop (align8 n) 1) s Q at hI
  rw [extendHeap_eq, bind_assoc] at hI
  replace hI := (interrupted_getBrk.1 hI).2
  rw [bind_assoc] at hI
  replace hI := hI.of_bind_run hgrow
  rw [if_neg Nat.one_ne_zero, h.brk] at hI
  -- what the mapping has left alone
  have hbelow : ∀ y < hi, (mapPages B pages s.brk s).2.mem y = s.mem y := fun y hy => by
    refine mapPages_mem_below htiled ?_ (h.brk.symm ▸ hy)
    rw [hall]
    exact hceil.trans window_lt.le
  obtain ⟨r, g, hrun, -, hg⟩ := h.growing.returns_growMapping (B := B) h.brk hpages hlt
  obtain ⟨rfl, rfl⟩ := Prod.mk.inj (Option.some.inj (hgrow.symm.trans hrun))
  refine ⟨_, ⟨hg, congrArg (· + pages * pageSize) h.brk, hroom, h.brk ▸ hceil⟩, hbelow, ?_⟩
  rw [h.brk]
  exact hI

namespace Appending

/-- **The new block is appended**, and joined to the last one if that is free. -/
theorem exists_calling (h : Appending live hi pages D L g) :
    ∃ t, run (heapAct B) (appendBlock hi) g = some (1, t) ∧
      Calling live (hi + pages * pageSize) D (Block.joined (L ++ [freshAt hi pages])) t := by
  obtain ⟨m, hrun, hl⟩ := h.exists_joined (B := B)
  refine ⟨_, hrun, h.framed, h.brk, h.sound_joined, hl, ⟨fun d hd => ?_, h.growing.used.nodup⟩⟩
  obtain ⟨b, hb, hbd, hu, hpos⟩ := h.growing.used.used d hd
  exact ⟨b, Block.mem_joined_of_used (List.mem_append_left _ hb) hu, hbd, hu, hpos⟩

/-- The call comes to `coalesce`, with the new block linked to the last one. -/
theorem interrupted_coalesce {tick : HeapState σ → Option (HeapState σ)}
    {Q : ℕ → HeapState σ → Prop} {f : ℕ → HeapM ℕ} (h : Appending live hi pages D (init ++ [z]) g)
    (hI : Interrupted (heapAct B) tick (appendBlock hi >>= f) g Q) :
    ∃ m, Linked m (init ++ [z] ++ [freshAt hi pages]) ∧ (∀ y < heapStart, m y = g.mem y) ∧
      Interrupted (heapAct B) tick (coalesce >>= fun _ => f 1) (g.setMem m) Q := by
  have hroom := h.fresh_room
  have hlow := hroom.1
  -- the header of the new block
  rw [appendBlock_eq, bind_assoc] at hI
  replace hI := (interrupted_setMagic.1 hI).2
  rw [bind_assoc] at hI
  replace hI := (interrupted_getBrk.1 hI).2
  rw [HeapState.setMem_brk, h.brk, h.fresh_size, bind_assoc] at hI
  replace hI := ((interrupted_setSize hroom).1 hI).2
  rw [bind_assoc] at hI
  replace hI := ((interrupted_setNext hroom).1 hI).2
  rw [bind_assoc] at hI
  replace hI := ((interrupted_setFree hroom).1 hI).2
  have hout : ∀ y, y < hi ∨ hi + headerSize ≤ y →
      IsHeader.put g.mem hi (freshBlock pages) 0 y = g.mem y := fun y hy =>
    IsHeader.put_apply_of_disjoint g.mem (freshBlock pages) 0 hy
  have hput := h.setMem hout
  -- the walk to the last block
  rw [bind_assoc] at hI
  replace hI := (interrupted_getHead.1 hI).2
  rw [bind_assoc] at hI
  change Interrupted (heapAct B) tick (tailLoop listFuel g.head >>= _)
    (g.setMem (IsHeader.put g.mem hi (freshBlock pages) 0)) Q at hI
  rw [h.growing.framed.head] at hI
  replace hI := hI.of_bind_run hput.run_tailLoop
  rw [bind_assoc] at hI
  replace hI := ((interrupted_setNext h.last_room).1 hI).2
  rw [bind_assoc] at hI
  refine ⟨_, hput.growing.linked.append_fresh (h.fresh_header g.mem) h.growing.sound.tiles
    h.growing.framed.hi_lt, fun y hy => ?_, hI⟩
  have hz : heapStart ≤ z.addr := h.last_room.1
  rw [Mem.write32_apply_of_disjoint _ _ (by omega)]
  exact hout y (Or.inl (by omega))

end Appending

/-! ## The last block -/

/-- **Joining the new block to the last one** is not safe wherever the interrupt comes, even if what
is in front of the last one stays in use: its size is counted twice, and the block that the search
then takes is in a list that ends behind the heap. -/
theorem Appending.unsafe_join {live' : Set (ℕ × ℕ)}
    (h : Appending live hi pages D (init ++ [w]) g) (hD : D ≠ []) (h1 : 1 ≤ n)
    (h2 : n ≤ heapMax) (hnull : g.mem.read32 8 = 0) (hw : w.free = true)
    (hinit : ∀ v ∈ init.getLast?, Block.Kept D v) (hfits : align8 n ≤ (freshAt hi pages).size) :
    ¬ Interrupted (heapAct B) (reaping B D) (appendBlock hi >>= fun r =>
      if r = 0 then ret 0 else attemptLoop (align8 n) 1) g (AllottedSafely live' n) := by
  intro hI
  have hH := headerSize_eq
  have hs := h.growing.sound
  have hstop : (freshAt hi pages).stop = hi + pages * pageSize := freshAt_stop h.room
  obtain ⟨m, hlm, hlow, hco⟩ := h.interrupted_coalesce hI
  obtain ⟨a, hat, hwa, hwhi⟩ := Tiles.append_iff.1 hs.tiles
  replace hwhi : w.stop = hi := hwhi
  have hmerging : Merging (hi + pages * pageSize) D init w (freshAt hi pages) []
      (g.setMem m) := by
    refine ⟨h.framed, h.brk.ge, ?_, by simpa using hlm, ⟨fun d hd => ?_, h.growing.used.nodup⟩,
      hs.merged, hw, rfl⟩
    · refine Tiles.append_iff.2 ⟨a, hat, hwa, ?_, ?_⟩
      · exact hwhi.symm
      · exact hstop
    · obtain ⟨b, hb, hrest⟩ := h.growing.used.used d hd
      refine ⟨b, ?_, hrest⟩
      rw [show init ++ w :: freshAt hi pages :: [] = init ++ [w] ++ [freshAt hi pages] by simp]
      exact List.mem_append_left _ hb
  have hj := hmerging.joins
  obtain ⟨t, hret, ht, hl, htiles⟩ := hmerging.exists_null hinit (Block.reap_pair hj hD) (by
    refine Eq.trans (Mem.read32_congr fun y h1 h2 => hlow y ?_) hnull
    simp only [heapStart]
    omega) hco.of_bind
  replace hret : Returns (heapAct B) (attemptLoop (align8 n) 1) t (AllottedSafely live' n) := hret
  -- the search takes a block of this list
  have hceil := h.ceiling
  have hroom := h.room
  have hfresh : headerSize + (freshAt hi pages).size = pages * pageSize := by
    change headerSize + (pages * pageSize - headerSize) = _
    simp only [pageSize, headerSize]
    omega
  have hws : w.addr + headerSize ≤ w.stop := Nat.le_add_right _ _
  have hlen := (hat.reap D).length_le
  have hbrk := AllottedSafely.brk_eq hl htiles (by
    rw [hfresh]
    simp only [heapStart, heapMax, headerSize, minSplit] at *
    omega) (by
    rw [List.length_append, List.length_singleton]
    simp only [heapStart, heapMax, headerSize, listFuel] at *
    omega) ((congrArg HeapState.head ht).trans h.growing.framed.head) h1 h2 ⟨_,
    List.mem_append_right _ List.mem_cons_self, rfl, hfits.trans ((Nat.le_add_left _ _).trans
      (Nat.le_add_left _ _))⟩ hret
  have hgbrk : t.brk = hi + pages * pageSize := (congrArg HeapState.brk ht).trans h.brk
  omega

/-- A block joined to the last one, behind a block in use. -/
theorem Block.joined_last {c : Block}
    (hm : Seg.NoFreeNeighbours ((init ++ [v] ++ [w]).map Block.seg)) (hv : v.free = false)
    (hj : w.Joins c) :
    joined (init ++ [v] ++ [w] ++ [c]) = init ++ [v, w.join c] := by
  have hskip : ¬ v.Joins w := fun hvw => Bool.false_ne_true (hv.symm.trans hvw.1)
  have hend : joined [v, w, c] = [v, w.join c] :=
    (joinedFrom_skip hskip _).trans (congrArg (v :: ·) (joinedFrom_join hj []))
  rw [List.append_assoc, List.map_append] at hm
  rw [List.append_assoc, List.append_assoc]
  change joined (init ++ [v, w, c]) = _
  rw [joined_append_used (by rintro p ⟨⟩; exact hv), hend,
    joined_of_merged (List.isChain_append.1 hm).1]

/-- **The last block stays in use when the heap grows**, wherever the interrupt comes. -/
theorem Calling.kept_of_growth (h : Calling live hi D L s) (hD : D ≠ []) (h1 : 1 ≤ n)
    (h2 : n ≤ heapMax) (hnull : s.mem.read32 8 = 0) (hno : ∀ c ∈ L, ¬ c.seg.Fits (align8 n))
    (hceil : s.brk + growthPages (align8 n) * pageSize ≤ heapStart + heapMax)
    (hgrants : B.grants (growthPages (align8 n)) s.brk s.env = growthPages (align8 n))
    (hI : Interrupted (heapAct B) (reaping B D) (attemptLoop (align8 n) 2) s
      (AllottedSafely {b ∈ live | b.1 ∉ D} n)) : ∀ w ∈ L.getLast?, Block.Kept D w := by
  intro w hw
  obtain ⟨init, rfl⟩ := List.getLast?_eq_some_iff.1 hw
  obtain ⟨g, happ, hbelow, hgrown⟩ := h.interrupted_growth h1 h2 hno hceil hgrants hI
  obtain ⟨-, -, hsize⟩ := payloadSize_align8 h1 (h2.trans_lt (by decide))
  obtain ⟨-, -, hpay, -⟩ := growthPages_spec hsize
  set pages := growthPages (align8 n)
  have hfits : align8 n ≤ (freshAt hi pages).size := by
    change align8 n ≤ pages * pageSize - headerSize
    omega
  obtain ⟨t, hrun, hcall⟩ := happ.exists_calling (B := B)
  have hagain := hgrown.of_bind_run hrun
  rw [if_neg Nat.one_ne_zero] at hagain
  have hmerged := h.sound.merged
  rw [List.map_append] at hmerged
  obtain ⟨a, hinit, hwa, hwhi⟩ := Tiles.append_iff.1 h.sound.tiles
  replace hwhi : w.stop = hi := hwhi
  have hapart : ∀ v ∈ init.getLast?, ¬ (v.free = true ∧ w.free = true) := fun v hv => by
    refine (List.isChain_append.1 hmerged).2.2 v.seg ?_ w.seg rfl
    rw [List.getLast?_map]
    exact Option.mem_map_of_mem _ hv
  by_cases hwf : w.free = true
  · have hj : w.Joins (freshAt hi pages) := ⟨hwf, rfl, hwhi⟩
    have hused : ∀ v ∈ init.getLast?, v.free = false := fun v hv =>
      Bool.eq_false_of_not_eq_true fun hvf => hapart v hv ⟨hvf, hwf⟩
    by_cases hv : ∀ v ∈ init.getLast?, Block.Kept D v
    · refine absurd hgrown (happ.unsafe_join hD h1 h2 ?_ hwf hv hfits)
      refine Eq.trans (Mem.read32_congr fun y h1 h2 => hbelow y ?_) hnull
      have := h.sound.tiles.le
      simp only [heapStart] at this
      omega
    · -- the block in front of it is freed
      push Not at hv
      obtain ⟨v, hv, hnot⟩ := hv
      obtain ⟨init, rfl⟩ := List.getLast?_eq_some_iff.1 hv
      have hvu := hused v hv
      rw [Block.joined_last h.sound.merged hvu hj] at hcall
      refine absurd ⟨hvu, hcall.unfreed_before_last h1 h2 (fun c hc => ?_) ⟨rfl, ?_⟩ hagain⟩ hnot
      · exact hno c (List.mem_append_left _ hc)
      · exact hfits.trans ((Nat.le_add_left _ _).trans (Nat.le_add_left _ _))
  · -- the block itself is freed
    have hwu : w.free = false := Bool.eq_false_of_not_eq_true hwf
    have hlast : ∀ z ∈ (init ++ [w]).getLast?, z.free = false := fun z hz => by
      obtain rfl := Option.some.inj (hw.symm.trans hz)
      exact hwu
    rw [Block.joined_of_merged (h.sound.append_fresh hlast happ.room).merged, List.append_assoc]
      at hcall
    exact ⟨hwu, hcall.unfreed_before_last h1 h2 hno ⟨rfl, hfits⟩ hagain⟩

/-! ## `kmalloc` -/

/-- **What a request for memory needs**, wherever the interrupt comes. -/
theorem Calling.clear_of_kmalloc (h : Calling live hi D L s) (hD : D ≠ []) (h1 : 1 ≤ n)
    (h2 : n ≤ heapMax) (hnull : s.mem.read32 8 = 0) {grows : Prop}
    (hgrows : grows → s.brk + growthPages (align8 n) * pageSize ≤ heapStart + heapMax ∧
      B.grants (growthPages (align8 n)) s.brk s.env = growthPages (align8 n))
    (hI : Interrupted (heapAct B) (reaping B D) (kmalloc n) s
      (AllottedSafely {b ∈ live | b.1 ∉ D} n)) : ClearAlloc (align8 n) D L grows := by
  rw [kmalloc, perform_bind] at hI
  replace hI := (interrupted_act.1 hI).2
  rw [show (heapAct B getReady s).1 = 1 from h.framed.ready, if_neg Nat.one_ne_zero,
    if_neg (Nat.one_le_iff_ne_zero.1 h1)] at hI
  replace hI : Interrupted (heapAct B) (reaping B D) (attemptLoop (align8 n) 2) s
    (AllottedSafely {b ∈ live | b.1 ∉ D} n) := hI
  unfold ClearAlloc
  rcases Block.firstFit_cases (align8 n) L with ⟨pre, b, post, hb, hL, hpre, hfit⟩ | ⟨hnil, hno⟩
  · rw [hb]
    exact h.clear_of_found h1 h2 hL hpre hfit hI
  · rw [hnil]
    refine ⟨fun z hz => h.small_of_lost h1 h2 hz (fun c hc _ => hno c hc) hI, fun hg => ?_⟩
    exact h.kept_of_growth hD h1 h2 hnull hno (hgrows hg).1 (hgrows hg).2 hI

end JarvisOS
