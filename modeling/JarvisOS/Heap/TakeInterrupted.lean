import JarvisOS.Heap.SearchInterrupted

/-!
# Taking a block with others freed under its hands

While `kmalloc` splits a block, the list in memory changes from the block to the block and its rest.
If the neighbours of the block stay in use, freeing others does not come near it (`Walled`), and the
request is served wherever the interrupt comes (`interrupted_takeBlock`).
-/

namespace JarvisOS

open Foundations HeapOp Prog

variable {σ : Type} {B : Backing σ} {hi n a : ℕ} {s u : HeapState σ} {live : Set (ℕ × ℕ)}
  {D : List ℕ} {L mid pre post : List Block}

/-! ## Walls -/

namespace Block

/-- A block in use separates what stands before it from what follows. -/
theorem joined_append_used (h : ∀ p ∈ post.head?, p.free = false) :
    joined (pre ++ post) = joined pre ++ joined post := by
  have key : ∀ (pre : List Block) (b : Block),
      joinedFrom b (pre ++ post) = joinedFrom b pre ++ joined post := by
    intro pre
    induction pre with
    | nil =>
      intro b
      cases post with
      | nil => rfl
      | cons p post =>
        have hnot : ¬ b.Joins p := fun hj =>
          absurd hj.2.1 (by rw [h p rfl]; exact Bool.false_ne_true)
        rw [List.nil_append, joinedFrom_skip hnot]
        rfl
    | cons d pre ih =>
      intro b
      by_cases hj : b.Joins d
      · rw [List.cons_append, joinedFrom_join hj, joinedFrom_join hj, ih]
      · rw [List.cons_append, joinedFrom_skip hj, joinedFrom_skip hj, ih]
        rfl
  cases pre with
  | nil => rfl
  | cons b pre => exact key pre b

theorem head?_joined_freeAt {ptr : ℕ} {p : Block} (hp : p ∈ (joined (freeAt ptr L)).head?) :
    ∃ q ∈ L.head?, q.addr = p.addr ∧ (q.addr + headerSize ≠ ptr → q.free = p.free) := by
  cases L with
  | nil => cases hp
  | cons b L =>
    rw [freeAt_cons, joined] at hp
    obtain ⟨c, L', e, ha, hf⟩ := joinedFrom_eq_cons
      (if b.addr + headerSize = ptr then { b with free := true } else b) (freeAt ptr L)
    rw [e] at hp
    obtain rfl := Option.some.inj hp
    refine ⟨b, rfl, ?_, fun hne => ?_⟩
    · rw [ha]
      split_ifs <;> rfl
    · rw [hf, if_neg hne]

theorem reap_nil (D : List ℕ) : reap D [] = [] := by
  induction D with
  | nil => rfl
  | cons d D ih => exact ih

theorem reap_singleton {b : Block} (h : b.free = true) : reap D [b] = [b] := by
  induction D with
  | nil => rfl
  | cons d D ih =>
    have hb : ({ b with free := true } : Block) = b := by rw [← h]
    rw [reap, freeAt_cons, hb, ite_self]
    exact ih

/-- Freeing anything joins two free neighbours. -/
theorem reap_pair {b c : Block} (h : b.Joins c) (hD : D ≠ []) : reap D [b, c] = [b.join c] := by
  obtain ⟨d, D', rfl⟩ := List.exists_cons_of_ne_nil hD
  have hb : ({ b with free := true } : Block) = b := by rw [← h.1]
  have hc : ({ c with free := true } : Block) = c := by rw [← h.2.1]
  have hpair : freeAt d [b, c] = [b, c] := by
    rw [freeAt_cons, freeAt_cons, hb, hc, ite_self, ite_self]
    rfl
  rw [reap, hpair]
  have : joined [b, c] = [b.join c] := joinedFrom_join h []
  rw [this, reap_singleton rfl]

/-- The block is in use and is not freed. -/
def Kept (D : List ℕ) (p : Block) : Prop := p.free = false ∧ p.addr + headerSize ∉ D

theorem reap_append (h : ∀ p ∈ post.head?, Kept D p) :
    reap D (pre ++ post) = reap D pre ++ reap D post := by
  induction D generalizing pre post with
  | nil => rfl
  | cons d D ih =>
    have hne : ∀ q ∈ post.head?, q.addr + headerSize ≠ d := fun q hq e =>
      (h q hq).2 (e ▸ List.mem_cons_self)
    rw [reap, freeAt_append, joined_append_used fun p hp => ?_, ih fun p hp => ?_]
    · rfl
    · obtain ⟨q, hq, e, hf⟩ := head?_joined_freeAt hp
      refine ⟨(hf (hne q hq)).symm.trans (h q hq).1, fun hD => (h q hq).2 ?_⟩
      exact List.mem_cons_of_mem d (e ▸ hD)
    · cases post with
      | nil => cases hp
      | cons q post =>
        rw [freeAt_cons, if_neg (hne q rfl)] at hp
        obtain rfl := Option.some.inj hp
        exact (h q rfl).1

/-- A block in use that is not freed stays where it is. -/
theorem reap_cons_kept {p : Block} (h : Kept D p) : reap D (p :: post) = p :: reap D post := by
  induction D generalizing post with
  | nil => rfl
  | cons d D ih =>
    have hne : p.addr + headerSize ≠ d := fun e => h.2 (e ▸ List.mem_cons_self)
    have hD : Kept D p := ⟨h.1, fun hD => h.2 (List.mem_cons_of_mem d hD)⟩
    have hjoin : joined (p :: freeAt d post) = p :: joined (freeAt d post) := by
      cases freeAt d post with
      | nil => rfl
      | cons q M => exact joinedFrom_skip (fun hj => Bool.false_ne_true (h.1.symm.trans hj.1)) M
    rw [reap, freeAt_cons, if_neg hne, hjoin, ih hD]
    rfl

end Block

theorem linkOf_reap (D : List ℕ) (L : List Block) : linkOf (Block.reap D L) = linkOf L := by
  induction D generalizing L with
  | nil => rfl
  | cons d D ih => exact (ih _).trans (linkOf_joined_freeAt d L)

/-- What stands around the middle of a list begins and ends with blocks in use that are not
freed. -/
structure Walled (D : List ℕ) (pre post : List Block) : Prop where
  before : ∀ p ∈ pre.getLast?, Block.Kept D p
  after : ∀ p ∈ post.head?, Block.Kept D p

/-- **Freeing does not cross the walls.** -/
theorem Walled.reap (h : Walled D pre post) (mid : List Block) :
    Block.reap D (pre ++ (mid ++ post)) =
      Block.reap D pre ++ (Block.reap D mid ++ Block.reap D post) := by
  rw [← (Block.reap_append h.after : Block.reap D (mid ++ post) = _)]
  rcases List.eq_nil_or_concat pre with rfl | ⟨pre', p, rfl⟩
  · rw [Block.reap_nil, List.nil_append, List.nil_append]
  · have hp : Block.Kept D p := h.before p (by simp)
    rw [List.concat_eq_append, List.append_assoc, List.singleton_append,
      Block.reap_append (show ∀ q ∈ (p :: _).head?, Block.Kept D q by rintro q ⟨⟩; exact hp),
      Block.reap_append (show ∀ q ∈ [p].head?, Block.Kept D q by rintro q ⟨⟩; exact hp),
      Block.reap_cons_kept hp, Block.reap_cons_kept hp, Block.reap_nil, List.append_assoc,
        List.singleton_append]

/-- The block in front of a free one that stays in the list is kept. -/
theorem Ticks.kept_before (h : Ticks hi live D L s u) {b : Block} (hL : L = pre ++ b :: post)
    (hbf : b.free = true) (hstays : ∃ p ∈ Block.reap D L, p.addr = b.addr) :
    ∀ p ∈ pre.getLast?, Block.Kept D p := by
  intro p hp
  obtain ⟨pre, rfl⟩ : ∃ pre', pre = pre' ++ [p] := by
    rcases List.eq_nil_or_concat pre with rfl | ⟨pre', q, rfl⟩
    · cases hp
    · rw [List.concat_eq_append, List.getLast?_append, List.getLast?_singleton] at hp
      obtain rfl := Option.some.inj hp
      exact ⟨pre', List.concat_eq_append⟩
  rw [List.append_assoc, List.singleton_append] at hL
  have hpL : p ∈ L := hL ▸ List.mem_append_right _ List.mem_cons_self
  have hmerged := h.before.merged
  rw [hL, List.map_append] at hmerged
  have hnot := (List.isChain_cons_cons.1 (List.isChain_append.1 hmerged).2.1).1
  refine ⟨Bool.eq_false_of_not_eq_true fun hpf => hnot ⟨hpf, hbf⟩, fun hpD => ?_⟩
  -- the block has been freed, and what covers it now is a free neighbour
  obtain ⟨q, hq, hqb⟩ := hstays
  have htiles := h.before.tiles
  rw [hL] at htiles
  have hbstop : b.addr = p.stop := by
    obtain ⟨-, -, -, hb, -⟩ := Tiles.append_iff.1 htiles
    exact hb
  have hH := headerSize_eq
  have hpstop : p.addr + headerSize ≤ p.stop := Nat.le_add_right _ _
  have hqf : q.free = true := by
    obtain ⟨c, hc, hcq, hf⟩ := Block.addr_of_mem_reap hq
    have hbL : b ∈ L := hL ▸ List.mem_append_right _ (List.mem_cons_of_mem _ List.mem_cons_self)
    exact hf (h.placed.eq_of_addr hc hbL (hcq.trans hqb) ▸ hbf)
  obtain ⟨g, hg, hgf, hle, hend⟩ : ∃ g ∈ Block.reap D L, g.free = true ∧ g.addr ≤ p.addr ∧
      p.stop ≤ g.stop := by
    obtain ⟨x, hxp, hx, ht⟩ := h.exists_lost ⟨p, hpL, rfl⟩
    have hsize : p.size ≤ x.size := by
      obtain ⟨d, hd, hdx, hle⟩ := hx.elim Block.size_le_of_mem_reap Block.size_le_of_mem_reapLost
      rwa [h.placed.eq_of_addr hd hpL (hdx.trans hxp)] at hle
    have hxstop : p.stop ≤ x.stop := by
      unfold Block.stop
      omega
    rcases ht.listed with hxL | ⟨-, -, g, hg, hgf, hlt, hle⟩
    · refine ⟨x, hxL, ?_, hxp.le, hxstop⟩
      by_contra hxf
      obtain ⟨k, hk⟩ := h.sound.live_of_used hxL (Bool.eq_false_of_not_eq_true hxf)
      exact hk.2 (hxp ▸ hpD)
    · exact ⟨g, hg, hgf, by omega, hxstop.trans hle⟩
  have hgq := h.sound.tiles.within hg hq (by omega)
  have := h.sound.tiles.used_after h.sound.merged hg hq hgf (by omega)
  rw [hqf] at this
  exact absurd this.symm Bool.false_ne_true

/-! ## After the call -/

/-- The payloads that are freed are those of live allocations. -/
theorem SoundList.live_of_stacks (h : SoundList hi live L) (hD : Stacks D L) :
    ∀ d ∈ D, ∃ k, (d, k) ∈ live := by
  intro d hd
  obtain ⟨b, hb, rfl, hu, -⟩ := hD.used d hd
  exact h.live_of_used hb hu

/-- **Freeing several live allocations.** -/
theorem HeapInv.reaping {l : List Seg} (h : HeapInv ⟨s, live⟩ l) (hD : ∀ d ∈ D, ∃ k, (d, k) ∈ live)
    (hnodup : D.Nodup) :
    ∃ u, reaping B D s = some u ∧ ∃ l', HeapInv ⟨u, {b ∈ live | b.1 ∉ D}⟩ l' := by
  obtain ⟨hs, hl⟩ := h.sound
  obtain ⟨u, hu, ht⟩ := exists_ticks (B := B) h.tiled.framed le_rfl hs hl
    (hs.stacks_of_live hD hnodup)
  exact ⟨u, hu, _, ht.heapInv h.tiled.framed rfl⟩

/-- A request that has been served stays so. -/
theorem Allotted.reaping {r : ℕ} (h : Allotted live n r s) (hD : ∀ d ∈ D, ∃ k, (d, k) ∈ live)
    (hnodup : D.Nodup) :
    ∃ u, reaping B D s = some u ∧ Allotted {b ∈ live | b.1 ∉ D} n r u := by
  obtain ⟨⟨l, hl⟩, hfresh⟩ := h
  obtain ⟨u, hu, l', hl'⟩ := hl.reaping (B := B) (fun d hd => by
    obtain ⟨k, hk⟩ := hD d hd
    refine ⟨k, ?_⟩
    split_ifs
    · exact hk
    · exact Set.mem_insert_of_mem _ hk) hnodup
  refine ⟨u, hu, ⟨l', ?_⟩, fun hr k hk => hfresh hr k hk.1⟩
  by_cases hr : r = 0
  · rwa [if_pos hr] at hl' ⊢
  · rw [if_neg hr] at hl' ⊢
    have hrD : r ∉ D := fun hd => by
      obtain ⟨k, hk⟩ := hD r hd
      exact hfresh hr k hk
    have e : {b ∈ insert (r, n) live | b.1 ∉ D} = insert (r, n) {b ∈ live | b.1 ∉ D} := by
      ext b
      simp only [Set.mem_ofPred_eq, Set.mem_insert_iff]
      constructor
      · rintro ⟨rfl | hb, hbD⟩
        · exact Or.inl rfl
        · exact Or.inr ⟨hb, hbD⟩
      · rintro (rfl | hb)
        · exact ⟨Or.inl rfl, hrD⟩
        · exact ⟨Or.inr hb.1, hb.2⟩
    exact e ▸ hl'

/-- A free block in the list may be replaced. -/
theorem Stacks.replace {b : Block} (h : Stacks D (pre ++ b :: post)) (hb : b.free = true)
    (mid : List Block) : Stacks D (pre ++ (mid ++ post)) := by
  refine ⟨fun d hd => ?_, h.nodup⟩
  obtain ⟨c, hc, e, hu, hpos⟩ := h.used d hd
  refine ⟨c, ?_, e, hu, hpos⟩
  rcases List.mem_append.1 hc with hc | hc
  · exact List.mem_append_left _ hc
  · refine List.mem_append_right _ (List.mem_append_right _ ((List.mem_cons.1 hc).resolve_left ?_))
    rintro rfl
    rw [hb] at hu
    cases hu

/-! ## A block taken whole -/

/-- The search has stopped at `b`, which stays in the list. -/
structure Stopped (B : Backing σ) (live : Set (ℕ × ℕ)) (n hi : ℕ) (D : List ℕ)
    (pre : List Block) (b : Block) (post : List Block) (s : HeapState σ) : Prop where
  pos : 1 ≤ n
  small : n < 2 ^ 31
  framed : Framed hi s
  brk : s.brk = hi
  sound : SoundList hi live (pre ++ b :: post)
  linked : Linked s.mem (pre ++ b :: post)
  used : Stacks D (pre ++ b :: post)
  fits : b.seg.Fits (align8 n)
  stays : ∃ p ∈ Block.reap D (pre ++ b :: post), p.addr = b.addr

namespace Stopped

variable {b : Block} {l : List Seg}

theorem heapInv (h : Stopped B live n hi D pre b post s) : HeapInv ⟨s, live⟩
    (pre.map Block.seg ++ b.seg :: post.map Block.seg) := by
  have := h.sound.heapInv h.framed h.brk h.linked
  rwa [List.map_append, List.map_cons] at this

theorem addr_eq (h : Stopped B live n hi D pre b post s) :
    b.addr = heapStart + Seg.span headerSize (pre.map Block.seg) := h.sound.tiles.addr_eq

theorem room (h : Stopped B live n hi D pre b post s) : Room heapStart hi b.addr :=
  (h.sound.tiles.placed le_rfl h.framed.hi_lt).of_append.room

theorem stop_le (h : Stopped B live n hi D pre b post s) : b.addr + headerSize + b.size ≤ hi :=
  (h.sound.tiles.bounds (List.mem_append_right _ List.mem_cons_self)).2

theorem exists_ticks (h : Stopped B live n hi D pre b post s) :
    ∃ u, JarvisOS.reaping B D s = some u ∧ Ticks hi live D (pre ++ b :: post) s u :=
  JarvisOS.exists_ticks h.framed h.brk.ge h.sound h.linked h.used

/-- The block as it is after the interrupt can be taken. -/
theorem exists_fits (h : Stopped B live n hi D pre b post s)
    (ht : Ticks hi live D (pre ++ b :: post) s u) : ∃ (pre' post' : List Seg) (x : Seg),
      HeapInv ⟨u, {b ∈ live | b.1 ∉ D}⟩ (pre' ++ x :: post') ∧ x.Fits (align8 n) ∧
        b.addr = heapStart + Seg.span headerSize pre' := by
  obtain ⟨p, hp, e⟩ := h.stays
  obtain ⟨pre', post', hsplit, hpa⟩ := ht.exists_split hp
  have hinv := ht.heapInv h.framed h.brk
  rw [hsplit] at hinv
  refine ⟨pre', post', p.seg, hinv, ?_, e ▸ hpa⟩
  have hb : b ∈ pre ++ b :: post := List.mem_append_right _ List.mem_cons_self
  obtain ⟨c, hc, hcp, hf⟩ := Block.addr_of_mem_reap hp
  obtain ⟨d, hd, hdp, hle⟩ := Block.size_le_of_mem_reap hp
  rw [ht.placed.eq_of_addr hc hb (hcp.trans e)] at hf
  rw [ht.placed.eq_of_addr hd hb (hdp.trans e)] at hle
  exact ⟨hf h.fits.1, h.fits.2.trans hle⟩

/-- After the call. -/
theorem interrupted_done (h : Stopped B live n hi D pre b post s) {r : ℕ} {t : HeapState σ}
    (hr : r ≠ 0) (ht : Allotted live n r t) :
    Interrupted (heapAct B) (JarvisOS.reaping B D) (ret r : HeapM ℕ) t
      fun r t => r ≠ 0 ∧ Allotted {b ∈ live | b.1 ∉ D} n r t := by
  obtain ⟨u, hu, hrest⟩ := ht.reaping (B := B) (h.sound.live_of_stacks h.used) h.used.nodup
  exact interrupted_ret.2 ⟨u, hu, hr, hrest⟩

/-- **A block that is taken whole.** -/
theorem interrupted_whole (h : Stopped B live n hi D pre b post s)
    (hwhole : ¬ align8 n + headerSize + minSplit ≤ b.size) :
    Interrupted (heapAct B) (JarvisOS.reaping B D) (takeBlock b.addr (align8 n)) s
      fun r t => r ≠ 0 ∧ Allotted {b ∈ live | b.1 ∉ D} n r t := by
  have hH := headerSize_eq
  have hM : minSplit = 16 := rfl
  obtain ⟨u, hu, ht⟩ := h.exists_ticks
  obtain ⟨pre', post', x, hinv, hfit, haddr⟩ := h.exists_fits ht
  have hroom := h.room
  have hup := hroom.2
  obtain ⟨-, -, hsize⟩ := payloadSize_align8 h.pos h.small
  have htake := hinv.returns_takeBlock (B := B) hfit h.pos h.small
  rw [← haddr] at htake
  have hset := hinv.returns_setFree (B := B) hfit h.pos h.small haddr
  refine (interrupted_getSize hroom h.linked.of_append.1).2 ⟨⟨u, hu, htake⟩, ?_⟩
  rw [u32_of_lt (n := align8 n + headerSize) (by omega),
    u32_of_lt (n := align8 n + headerSize + minSplit) (by omega),
    if_neg (show ¬ b.seg.size ≥ align8 n + headerSize + minSplit from hwhole)]
  refine (interrupted_setFree hroom).2 ⟨⟨u, hu, hset⟩, ?_⟩
  rw [u32_of_lt (n := b.addr + headerSize) (by omega)]
  exact h.interrupted_done (by omega) (h.heapInv.allotted_whole h.fits h.pos h.small h.addr_eq)

/-! ## A block that is split -/

/-- Bytes in the payload of the block do not count. -/
theorem setMem (h : Stopped B live n hi D pre b post s) {m : Mem}
    (hm : ∀ y, y < b.addr + headerSize ∨ b.stop ≤ y → m y = s.mem y) :
    Stopped B live n hi D pre b post (s.setMem m) := by
  refine ⟨h.pos, h.small, ⟨h.framed.ready, h.framed.head, h.framed.page, h.framed.ceiling⟩, h.brk,
    h.sound, h.linked.congr fun c hc y h1 h2 => hm y ?_, h.used, h.fits, h.stays⟩
  rcases List.mem_append.1 hc with hc | hc
  · have := h.sound.tiles.before_block c hc
    omega
  · rcases List.mem_cons.1 hc with rfl | hc
    · omega
    · have := h.sound.tiles.after_block c hc
      omega

/-- The interrupt writes nothing to the payload of the block. -/
theorem payload_of_ticks (h : Stopped B live n hi D pre b post s)
    (ht : Ticks hi live D (pre ++ b :: post) s u) :
    ∀ y, b.addr + headerSize ≤ y → y < b.stop → u.mem y = s.mem y := by
  intro y h1 h2
  refine ht.frame y fun a ha => ?_
  obtain ⟨c, hc, rfl⟩ := List.mem_map.1 ha
  rcases List.mem_append.1 hc with hc | hc
  · have := h.sound.tiles.before_block c hc
    omega
  · rcases List.mem_cons.1 hc with rfl | hc
    · omega
    · have := h.sound.tiles.after_block c hc
      omega

/-- Interrupted in state `u`: the block is as it was, between what freeing has made of the rest. -/
structure Kept (live : Set (ℕ × ℕ)) (hi : ℕ) (D : List ℕ) (pre : List Block) (b : Block)
    (post : List Block) (s u : HeapState σ) : Prop where
  state : u = s.setMem u.mem
  tiles : Tiles hi heapStart (Block.reap D pre ++ b :: Block.reap D post)
  inv : HeapInv ⟨u, {b ∈ live | b.1 ∉ D}⟩
    ((Block.reap D pre).map Block.seg ++ b.seg :: (Block.reap D post).map Block.seg)
  addr : b.addr = heapStart + Seg.span headerSize ((Block.reap D pre).map Block.seg)
  header : IsHeader u.mem b.addr b.seg (linkOf post)

/-- **The interrupt does not come near the block** between its walls. -/
theorem exists_kept (h : Stopped B live n hi D pre b post s) (hw : Walled D pre post) {m : Mem}
    (hm : ∀ y, y < b.addr + headerSize ∨ b.stop ≤ y → m y = s.mem y) :
    ∃ u, JarvisOS.reaping B D (s.setMem m) = some u ∧ Kept live hi D pre b post s u ∧
      ∀ y, b.addr + headerSize ≤ y → y < b.stop → u.mem y = m y := by
  have hs := h.setMem hm
  obtain ⟨u, hu, ht⟩ := hs.exists_ticks
  have hreap : Block.reap D (pre ++ b :: post) =
      Block.reap D pre ++ b :: Block.reap D post := by
    have := hw.reap [b]
    rwa [Block.reap_singleton h.fits.1] at this
  have hinv := ht.heapInv hs.framed hs.brk
  have htiles := ht.sound.tiles
  have hlinked := ht.linked
  rw [hreap] at hinv htiles hlinked
  rw [List.map_append, List.map_cons] at hinv
  refine ⟨u, hu, ⟨ht.state, htiles, hinv, htiles.addr_eq, ?_⟩, hs.payload_of_ticks ht⟩
  rw [← linkOf_reap D post]
  exact hlinked.of_append.1

end Stopped

/-- A block in the list is carved. -/
theorem Tiles.carve {b : Block} (h : Tiles hi a (pre ++ b :: post)) (least size : ℕ) :
    Tiles hi a (pre ++ (blocksFrom b.addr (Seg.carve headerSize least size b.seg) ++ post)) := by
  obtain ⟨e, hpre, hb, hpost⟩ := append_iff.1 h
  refine append_iff.2 ⟨e, hpre, append_iff.2 ⟨b.stop, hb ▸ ?_, hpost⟩⟩
  have := tiles_blocksFrom b.addr (Seg.carve headerSize least size b.seg)
  rwa [Seg.span_carve, ← Nat.add_assoc] at this

namespace Stopped

variable {b : Block}

/-- The block has been carved, and the list around it linked. -/
theorem Kept.allotted (hk : Kept live hi D pre b post s u) (h : Stopped B live n hi D pre b post s)
    {least : ℕ} (hleast : 0 < least) {m : Mem}
    (hm : Linked m (Block.reap D pre ++
      (blocksFrom b.addr (Seg.carve headerSize least (align8 n) b.seg) ++ Block.reap D post))) :
    Allotted {b ∈ live | b.1 ∉ D} n (b.addr + headerSize) (s.setMem m) := by
  have hholds := (hk.tiles.carve least (align8 n)).holds.1 hm
  rw [List.map_append, List.map_append, map_seg_blocksFrom, ← List.append_assoc] at hholds
  have := hk.inv.allotted_carve (n := n) h.fits h.pos h.small hleast hholds
  rwa [← hk.addr, hk.state, HeapState.setMem_setMem] at this

/-- The block while it is split: it has its new size, and is still free. -/
def front (n : ℕ) (b : Block) : Block := ⟨b.addr, align8 n, true⟩

/-- The block once it has been handed out. -/
def taken (n : ℕ) (b : Block) : Block := ⟨b.addr, align8 n, false⟩

/-- The rest that is split off. -/
def back (n : ℕ) (b : Block) : Block :=
  ⟨b.addr + headerSize + align8 n, b.size - align8 n - headerSize, true⟩

theorem carve_split (hsplit : align8 n + headerSize + minSplit ≤ b.size) :
    blocksFrom b.addr (Seg.carve headerSize minSplit (align8 n) b.seg) =
      [taken n b, back n b] := by
  rw [Seg.carve, if_pos (show align8 n + headerSize + minSplit ≤ b.seg.size from hsplit)]
  rfl

theorem back_stop (hsplit : align8 n + headerSize + minSplit ≤ b.size) :
    (back n b).stop = b.stop := by
  simp only [Block.stop, back]
  omega

/-- The rest that is split off lies in the block. -/
theorem back_room (h : Stopped B live n hi D pre b post s)
    (hsplit : align8 n + headerSize + minSplit ≤ b.size) :
    Room heapStart hi (back n b).addr := by
  have hlow := h.room.1
  have hstop := h.stop_le
  have hback : (back n b).addr = b.addr + headerSize + align8 n := rfl
  rw [headerSize_eq] at *
  exact ⟨by omega, by rw [headerSize_eq]; omega, h.framed.hi_lt⟩

theorem back_size (h : Stopped B live n hi D pre b post s)
    (hsplit : align8 n + headerSize + minSplit ≤ b.size) :
    sub32 (sub32 b.seg.size (align8 n)) headerSize = (back n b).size := by
  have hstop := h.stop_le
  have hlt := h.framed.hi_lt
  change sub32 (sub32 b.size (align8 n)) headerSize = _
  rw [sub32_of_le (show align8 n ≤ b.size by omega) (show b.size < 2 ^ 32 by omega),
    sub32_of_le (show headerSize ≤ b.size - align8 n by omega)
      (show b.size - align8 n < 2 ^ 32 by omega)]
  rfl

theorem carve_whole : blocksFrom b.addr (Seg.carve headerSize (b.size + 1) (align8 n) b.seg) =
    [{ b with free := false }] := by
  rw [Seg.carve, if_neg (show ¬ align8 n + headerSize + (b.size + 1) ≤ b.seg.size by
    simp only [Block.seg]
    omega)]
  rfl

/-- With nothing to free, everything stays as it is. -/
theorem nil (h : Stopped B live n hi D pre b post s) : Stopped B live n hi [] pre b post s :=
  { h with
    used := ⟨fun _ hd => absurd hd List.not_mem_nil, List.nodup_nil⟩
    stays := ⟨b, List.mem_append_right _ List.mem_cons_self, rfl⟩ }

theorem kept_nil (h : Stopped B live n hi D pre b post s) : Kept live hi [] pre b post s s := by
  have e : {b ∈ live | b.1 ∉ ([] : List ℕ)} = live := by simp
  refine ⟨rfl, h.sound.tiles, ?_, h.addr_eq, h.linked.of_append.1⟩
  rw [e]
  exact h.heapInv

/-- The headers behind a block that tiles are not in its header. -/
theorem after_header (h : Tiles hi a (pre ++ b :: post)) :
    ∀ c ∈ post, b.addr + headerSize ≤ c.addr := fun c hc =>
  (Nat.le_add_right _ _).trans (h.after_block c hc)

/-- The block linked to its rest. -/
theorem linked_split {m : Mem} {A C : List Block} (hl : Linked m (A ++ front n b :: C))
    (hr : IsHeader m (back n b).addr (back n b).seg (linkOf C))
    (hA : ∀ c ∈ A, c.addr + headerSize ≤ b.addr) (hC : ∀ c ∈ C, b.addr + headerSize ≤ c.addr)
    (hlt : (back n b).addr < 2 ^ 32) :
    Linked (m.write32 (b.addr + 8) (back n b).addr) (A ++ front n b :: back n b :: C) := by
  have hH := headerSize_eq
  have hback : (back n b).addr = b.addr + headerSize + align8 n := rfl
  refine hl.replace rfl (fun c hc y _ hy => ?_) ⟨hl.of_append.1.setNext hlt, ?_, ?_⟩
  · have := hA c hc
    exact Mem.write32_apply_of_disjoint _ _ (by omega)
  · exact hr.write_of_disjoint (by omega)
  · refine hl.of_append.2.congr fun c hc y hy _ => ?_
    have := hC c hc
    exact Mem.write32_apply_of_disjoint _ _ (by omega)

/-- A block marked as in use. -/
theorem linked_mark {m : Mem} {A C : List Block} {c : Block} (hl : Linked m (A ++ c :: C))
    (hA : ∀ d ∈ A, d.addr + headerSize ≤ c.addr) (hC : ∀ d ∈ C, c.addr + headerSize ≤ d.addr) :
    Linked (m.write32 (c.addr + 12) 0) (A ++ { c with free := false } :: C) := by
  have hH := headerSize_eq
  refine hl.replace rfl (fun d hd y _ hy => ?_) ⟨hl.of_append.1.setFree false, ?_⟩
  · have := hA d hd
    exact Mem.write32_apply_of_disjoint _ _ (by omega)
  · refine hl.of_append.2.congr fun d hd y hy _ => ?_
    have := hC d hd
    exact Mem.write32_apply_of_disjoint _ _ (by omega)

/-- The block handed out, linked to its rest. -/
theorem linked_handed {m : Mem} {A C : List Block} (hl : Linked m (A ++ front n b :: C))
    (hr : IsHeader m (back n b).addr (back n b).seg (linkOf C))
    (hA : ∀ c ∈ A, c.addr + headerSize ≤ b.addr) (hC : ∀ c ∈ C, b.addr + headerSize ≤ c.addr)
    (hlt : (back n b).addr < 2 ^ 32) :
    Linked ((m.write32 (b.addr + 8) (back n b).addr).write32 (b.addr + 12) 0)
      (A ++ taken n b :: back n b :: C) :=
  linked_mark (c := front n b) (linked_split hl hr hA hC hlt) hA
    (List.forall_mem_cons.2 ⟨Nat.le_add_right _ _, hC⟩)

/-- The two pieces are free, and freeing joins them again. -/
theorem reap_pieces (h : Stopped B live n hi D pre b post s) (hD : D ≠ [])
    (hsplit : align8 n + headerSize + minSplit ≤ b.size) :
    Block.reap D [front n b, back n b] = [b] := by
  rw [Block.reap_pair ⟨rfl, rfl, rfl⟩ hD]
  have hfree : b.free = true := h.fits.1
  have hsize : align8 n + (headerSize + (b.size - align8 n - headerSize)) = b.size := by omega
  unfold Block.join front back
  rw [hsize, ← hfree]

/-! ### The last words -/

theorem tiles_split (h : Stopped B live n hi D pre b post s)
    (hsplit : align8 n + headerSize + minSplit ≤ b.size) :
    Tiles hi heapStart (pre ++ front n b :: back n b :: post) := by
  obtain ⟨e, h1, h2, h3⟩ := Tiles.append_iff.1 h.sound.tiles
  exact Tiles.append_iff.2 ⟨e, h1, h2, rfl, by rwa [back_stop hsplit]⟩

theorem head_eq (h : Stopped B live n hi D pre b post s) (mid : List Block) :
    s.head = linkOf (pre ++ front n b :: mid) := by
  have := h.sound.linkOf_eq
  rw [h.framed.head, ← this]
  cases pre <;> rfl

/-- The interrupt when the block has its new size and is still linked to what followed it. -/
theorem exists_front (h : Stopped B live n hi D pre b post s) (hw : Walled D pre post)
    (hsplit : align8 n + headerSize + minSplit ≤ b.size) {m : Mem}
    (hm : Linked m (pre ++ front n b :: post))
    (hr : IsHeader m (back n b).addr (back n b).seg (linkOf post)) :
    ∃ m', JarvisOS.reaping B D (s.setMem m) = some (s.setMem m') ∧
      Linked m' (Block.reap D pre ++ front n b :: Block.reap D post) ∧
      IsHeader m' (back n b).addr (back n b).seg (linkOf (Block.reap D post)) := by
  have hback : (back n b).addr = b.addr + headerSize + align8 n := rfl
  have hused := h.used.replace h.fits.1 [front n b]
  have hplaced : Placed heapStart hi (pre ++ front n b :: post) :=
    ((h.tiles_split hsplit).placed le_rfl h.framed.hi_lt).sublist
      ((List.Sublist.refl pre).append (((List.Sublist.refl post).cons _).cons_cons _))
  obtain ⟨m', hrun, hl, hreaped⟩ := reaping_eq (B := B) (s := s.setMem m) (h.head_eq post) hm
    hplaced h.framed.ceiling h.brk.ge hused
  rw [show pre ++ front n b :: post = pre ++ ([front n b] ++ post) from rfl, hw.reap,
    Block.reap_singleton rfl] at hl
  refine ⟨m', hrun, hl, ?_⟩
  -- nothing is written to the header of the rest, which is not in the list
  rw [linkOf_reap]
  refine hr.congr fun y h1 h2 => hreaped.frame hused y fun a ha => ?_
  obtain ⟨c, hc, rfl⟩ := List.mem_map.1 ha
  have hstop : b.stop = b.addr + headerSize + b.size := rfl
  rcases List.mem_append.1 hc with hc | hc
  · have := h.sound.tiles.before_block c hc
    omega
  · rcases List.mem_cons.1 hc with rfl | hc
    · change y < b.addr ∨ b.addr + headerSize ≤ y
      omega
    · have := h.sound.tiles.after_block c hc
      omega

/-- The interrupt when the block is linked to its rest: the two are joined again. -/
theorem exists_rejoined (h : Stopped B live n hi D pre b post s) (hD : D ≠ [])
    (hw : Walled D pre post) (hsplit : align8 n + headerSize + minSplit ≤ b.size) {m : Mem}
    (hm : Linked m (pre ++ front n b :: back n b :: post)) :
    ∃ m', JarvisOS.reaping B D (s.setMem m) = some (s.setMem m') ∧
      Linked m' (Block.reap D pre ++ b :: Block.reap D post) := by
  have hplaced := (h.tiles_split hsplit).placed le_rfl h.framed.hi_lt
  obtain ⟨m', hrun, hl, -⟩ := reaping_eq (B := B) (s := s.setMem m) (h.head_eq (back n b :: post))
    hm hplaced h.framed.ceiling h.brk.ge (h.used.replace h.fits.1 [front n b, back n b])
  rw [show pre ++ front n b :: back n b :: post = pre ++ ([front n b, back n b] ++ post) from rfl,
    hw.reap, h.reap_pieces hD hsplit] at hl
  exact ⟨m', hrun, hl⟩

/-- The request is served when its block has been split between the walls. -/
theorem Kept.allotted_split (hk : Kept live hi D pre b post s u)
    (h : Stopped B live n hi D pre b post s) (hsplit : align8 n + headerSize + minSplit ≤ b.size)
    {m : Mem} (hm : Linked m (Block.reap D pre ++ front n b :: Block.reap D post))
    (hr : IsHeader m (back n b).addr (back n b).seg (linkOf (Block.reap D post))) :
    Allotted {b ∈ live | b.1 ∉ D} n (b.addr + headerSize)
      (s.setMem ((m.write32 (b.addr + 8) (back n b).addr).write32 (b.addr + 12) 0)) := by
  refine hk.allotted h (show 0 < minSplit by decide) ?_
  rw [carve_split hsplit]
  have hback := h.back_room hsplit
  exact linked_handed hm hr hk.tiles.before_block (after_header hk.tiles)
    (((Nat.le_add_right _ _).trans hback.2.1).trans_lt hback.2.2)

/-- The call from the link of the block on. -/
theorem interrupted_split_end (h : Stopped B live n hi D pre b post s) (hD : D ≠ [])
    (hw : Walled D pre post) (hsplit : align8 n + headerSize + minSplit ≤ b.size) {m : Mem}
    (hm : Linked m (pre ++ front n b :: post))
    (hr : IsHeader m (back n b).addr (back n b).seg (linkOf post)) :
    Interrupted (heapAct B) (JarvisOS.reaping B D) (do
        let _ ← setNext b.addr (back n b).addr
        let _ ← setFree b.addr 0
        return u32 (b.addr + headerSize)) (s.setMem m)
      fun r t => r ≠ 0 ∧ Allotted {b ∈ live | b.1 ∉ D} n r t := by
  have hroom := h.room
  have hback := h.back_room hsplit
  have hlt : (back n b).addr < 2 ^ 32 := ((Nat.le_add_right _ _).trans hback.2.1).trans_lt hback.2.2
  have hu32 : u32 (b.addr + headerSize) = b.addr + headerSize :=
    u32_of_lt (hroom.2.1.trans_lt hroom.2.2)
  have hne : b.addr + headerSize ≠ 0 := Nat.succ_ne_zero _
  obtain ⟨u, -, hk, -⟩ := h.exists_kept hw (m := s.mem) fun _ _ => rfl
  refine (interrupted_setNext hroom).2 ⟨?_, (interrupted_setFree hroom).2 ⟨?_, ?_⟩⟩
  · -- the block has its new size and is still linked to what followed it
    obtain ⟨m', hrun, hl, hr'⟩ := h.exists_front hw hsplit hm hr
    refine ⟨_, hrun, (returns_setNext hroom).2 ((returns_setFree hroom).2 (returns_ret.2 ?_))⟩
    rw [hu32]
    exact ⟨hne, hk.allotted_split h hsplit hl hr'⟩
  · -- the block and its rest are both free in the list
    have hsplitted := linked_split hm hr h.sound.tiles.before_block (after_header h.sound.tiles) hlt
    obtain ⟨m', hrun, hl⟩ := h.exists_rejoined hD hw hsplit hsplitted
    refine ⟨_, hrun, (returns_setFree hroom).2 (returns_ret.2 ?_)⟩
    have hmark := linked_mark hl hk.tiles.before_block (after_header hk.tiles)
    rw [hu32]
    exact ⟨hne, hk.allotted h (Nat.succ_pos b.size) (carve_whole ▸ hmark)⟩
  · -- the call has written its last word
    have hdone := h.kept_nil.allotted_split h.nil hsplit hm hr
    have e : {b ∈ live | b.1 ∉ ([] : List ℕ)} = live := by simp
    rw [e] at hdone
    rw [hu32]
    exact h.interrupted_done hne hdone

/-! ### The header of the rest -/

/-- `takeBlock` at the block, action by action. -/
theorem takeBlock_eq (h : Stopped B live n hi D pre b post s)
    (hsplit : align8 n + headerSize + minSplit ≤ b.size) :
    takeBlock b.addr (align8 n) = getSize b.addr >>= fun bsize =>
      if bsize ≥ align8 n + headerSize + minSplit then
        setMagic (back n b).addr blockMagic >>= fun _ =>
        getSize b.addr >>= fun bsize =>
        setSize (back n b).addr (sub32 (sub32 bsize (align8 n)) headerSize) >>= fun _ =>
        getNext b.addr >>= fun next =>
        setNext (back n b).addr next >>= fun _ =>
        setFree (back n b).addr 1 >>= fun _ =>
        setSize b.addr (align8 n) >>= fun _ =>
        setNext b.addr (back n b).addr >>= fun _ =>
        setFree b.addr 0 >>= fun _ => ret (u32 (b.addr + headerSize))
      else setFree b.addr 0 >>= fun _ => ret (u32 (b.addr + headerSize)) := by
  have hstop := h.stop_le
  have hlt := h.framed.hi_lt
  have haddr : u32 (u32 (b.addr + headerSize) + align8 n) = (back n b).addr := by
    rw [u32_of_lt (n := b.addr + headerSize) (by omega), u32_of_lt (by omega)]
    rfl
  unfold takeBlock
  rw [haddr, u32_of_lt (n := align8 n + headerSize) (by omega),
    u32_of_lt (n := align8 n + headerSize + minSplit) (by omega)]
  rfl

/-- The interrupt leaves the header of the rest alone while it is written, and finds the block as it
was. -/
theorem shielded (h : Stopped B live n hi D pre b post s) (hw : Walled D pre post)
    (hsplit : align8 n + headerSize + minSplit ≤ b.size) :
    Shielded (JarvisOS.reaping B D) (back n b).addr (Kept live hi D pre b post s) s := by
  have hM : minSplit = 16 := rfl
  have hback : (back n b).addr = b.addr + headerSize + align8 n := rfl
  have hstop : b.stop = b.addr + headerSize + b.size := rfl
  intro m hm
  obtain ⟨u, hu, hk, hmem⟩ := h.exists_kept hw (m := m) fun y hy => hm y (by omega)
  exact ⟨u, hu, hk, fun k hk => Mem.read32_congr fun y h1 h2 => hmem y (by omega) (by omega)⟩

/-- The list when the header of the rest and the new size have been written. -/
theorem linked_front (h : Stopped B live n hi D pre b post s)
    (hsplit : align8 n + headerSize + minSplit ≤ b.size) :
    Linked ((IsHeader.put s.mem (back n b).addr (back n b).seg (linkOf post)).write32 (b.addr + 4)
      (align8 n)) (pre ++ front n b :: post) := by
  have hM : minSplit = 16 := rfl
  have hback : (back n b).addr = b.addr + headerSize + align8 n := rfl
  have hstop : b.stop = b.addr + headerSize + b.size := rfl
  have hlt := h.framed.hi_lt
  have hle := h.stop_le
  set m := IsHeader.put s.mem (back n b).addr (back n b).seg (linkOf post) with hm
  have hput : ∀ y, y < (back n b).addr ∨ (back n b).addr + headerSize ≤ y → m y = s.mem y :=
    fun y hy => IsHeader.put_apply_of_disjoint s.mem (back n b).seg (linkOf post) hy
  have hout : ∀ y, y < b.addr ∨ b.stop ≤ y → (m.write32 (b.addr + 4) (align8 n)) y = s.mem y :=
    fun y hy => by rw [Mem.write32_apply_of_disjoint _ _ (by omega), hput y (by omega)]
  have hfront : (⟨align8 n, b.seg.free⟩ : Seg) = (front n b).seg :=
    congrArg (Seg.mk (align8 n)) h.fits.1
  have hhead : IsHeader m b.addr b.seg (linkOf post) :=
    h.linked.of_append.1.congr fun y _ hy => hput y (by omega)
  refine h.linked.replace rfl (fun c hc y _ hy => hout y (Or.inl ?_))
    ⟨hfront ▸ hhead.setSize (show align8 n < 2 ^ 32 by omega),
      h.linked.of_append.2.congr fun c hc y hy _ =>
        hout y (Or.inr ((h.sound.tiles.after_block c hc).trans hy))⟩
  have := h.sound.tiles.before_block c hc
  omega

/-- **A block that is split.** Until its new size is written, the interrupt finds the list as it
was, and what has been written of the rest is out of its way. -/
theorem interrupted_split (h : Stopped B live n hi D pre b post s) (hD : D ≠ [])
    (hw : Walled D pre post) (hsplit : align8 n + headerSize + minSplit ≤ b.size) :
    Interrupted (heapAct B) (JarvisOS.reaping B D) (takeBlock b.addr (align8 n)) s
      fun r t => r ≠ 0 ∧ Allotted {b ∈ live | b.1 ∉ D} n r t := by
  have hH := headerSize_eq
  have hback : (back n b).addr = b.addr + headerSize + align8 n := rfl
  have hroom := h.room
  have hrest := h.back_room hsplit
  have hsub := h.back_size hsplit
  have hshield := h.shielded (B := B) hw hsplit
  have hhead := h.linked.of_append.1
  have hge : b.seg.size ≥ align8 n + headerSize + minSplit := hsplit
  have hp : ∀ u, Kept live hi D pre b post s u → Returns (heapAct B)
      (takeBlock b.addr (align8 n)) u fun r t => r ≠ 0 ∧ Allotted {b ∈ live | b.1 ∉ D} n r t :=
    fun u hu => by
      rw [hu.addr]
      exact hu.inv.returns_takeBlock h.fits h.pos h.small
  rw [h.takeBlock_eq hsplit] at hp ⊢
  obtain ⟨u, hu, hk, -⟩ := hshield.words [] (by simp) (by simp)
  refine interrupted_getSize_again hroom hhead ⟨u, hu, hk⟩ (fun u hu => hu.header) hp fun hp => ?_
  rw [if_pos hge] at hp ⊢
  refine interrupted_setMagic_again ⟨u, hu, hk⟩ hp fun hp => ?_
  -- the magic number is written
  obtain ⟨u, hu, hk, hws⟩ := hshield.words [(0, blockMagic)] (by simp) (by simp)
  have hI := And.intro hk (hws (0, blockMagic) (by simp))
  have hhead₁ := hhead.write_of_disjoint (v := blockMagic) (c := (back n b).addr) (by omega)
  refine interrupted_getSize_again hroom hhead₁ ⟨u, hu, hI⟩ (fun u hu => hu.1.header) hp
    fun hp => ?_
  rw [hsub] at hp ⊢
  refine interrupted_setSize_again hrest ⟨u, hu, hI⟩ hp fun hp => ?_
  -- so is the size
  obtain ⟨u, hu, hk, hws⟩ := hshield.words [(0, blockMagic), (4, (back n b).size)] (by simp)
    (by simp)
  have hI := And.intro (And.intro hk (hws (0, blockMagic) (by simp)))
    (hws (4, (back n b).size) (by simp))
  have hhead₂ := hhead₁.write_of_disjoint (v := (back n b).size) (c := (back n b).addr + 4)
    (by omega)
  refine interrupted_getNext_again hroom hhead₂ ⟨u, hu, hI⟩ (fun u hu => hu.1.1.header) hp
    fun hp => ?_
  refine interrupted_setNext_again hrest ⟨u, hu, hI⟩ hp fun hp => ?_
  -- and the link
  obtain ⟨u, hu, hk, hws⟩ := hshield.words [(0, blockMagic), (4, (back n b).size), (8, linkOf post)]
    (by simp) (by simp)
  have hI := And.intro (And.intro (And.intro hk (hws (0, blockMagic) (by simp)))
    (hws (4, (back n b).size) (by simp))) (hws (8, linkOf post) (by simp))
  refine interrupted_setFree_again hrest ⟨u, hu, hI⟩ hp fun hp => ?_
  -- the header is complete
  obtain ⟨u, hu, hk, hws⟩ := hshield.words
    [(0, blockMagic), (4, (back n b).size), (8, linkOf post), (12, 1)] (by simp) (by simp)
  have hI := And.intro (And.intro (And.intro (And.intro hk (hws (0, blockMagic) (by simp)))
    (hws (4, (back n b).size) (by simp))) (hws (8, linkOf post) (by simp))) (hws (12, 1) (by simp))
  refine interrupted_setSize_again hroom ⟨u, hu, hI⟩ hp fun _ => ?_
  -- from here on the list in memory changes
  refine h.interrupted_split_end hD hw hsplit (h.linked_front hsplit) ?_
  refine (IsHeader.of_put s.mem (back n b).addr (back n b).seg ?_ hhead.next_lt).write_of_disjoint
    (by omega)
  have hle := h.stop_le
  have hlt := h.framed.hi_lt
  change b.size - align8 n - headerSize < 2 ^ 32
  omega

/-- **Taking a block with the interrupt anywhere**, if the block behind it is not freed when it is
split. -/
theorem interrupted_takeBlock (h : Stopped B live n hi D pre b post s) (hD : D ≠ [])
    (hafter : align8 n + headerSize + minSplit ≤ b.size →
      ∀ p ∈ post.head?, p.addr + headerSize ∉ D) :
    Interrupted (heapAct B) (JarvisOS.reaping B D) (takeBlock b.addr (align8 n)) s
      fun r t => r ≠ 0 ∧ Allotted {b ∈ live | b.1 ∉ D} n r t := by
  by_cases hsplit : align8 n + headerSize + minSplit ≤ b.size
  · obtain ⟨u, -, ht⟩ := h.exists_ticks
    refine h.interrupted_split hD ⟨ht.kept_before rfl h.fits.1 h.stays, fun p hp => ?_⟩ hsplit
    refine ⟨Bool.eq_false_of_not_eq_true fun hpf => ?_, hafter hsplit p hp⟩
    have hmerged := h.sound.merged
    rw [List.map_append, List.map_cons] at hmerged
    refine (List.isChain_cons.1 (List.isChain_append.1 hmerged).2.1).1 p.seg ?_ ⟨h.fits.1, hpf⟩
    rw [List.head?_map]
    exact Option.mem_map_of_mem _ hp
  · exact h.interrupted_whole hsplit

end Stopped

end JarvisOS
