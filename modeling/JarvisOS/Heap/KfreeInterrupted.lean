import JarvisOS.Heap.Interrupted

/-!
# `kfree` with blocks freed under its hands

If no neighbour of the block is free, `kfree` finds nothing to join, and stacks freed at any moment
of it leave the heap sound (`interrupted_kfree`).
-/

namespace JarvisOS

open Foundations HeapOp Prog

variable {σ : Type} {B : Backing σ} {hi : ℕ} {s u : HeapState σ} {live : Set (ℕ × ℕ)}
  {D : List ℕ} {L : List Block}

/-- A block in use that is not freed stays in the list. -/
theorem Block.mem_reap_of_used {b : Block} (hb : b ∈ L) (hu : b.free = false)
    (hD : b.addr + headerSize ∉ D) : b ∈ Block.reap D L := by
  induction D generalizing L with
  | nil => exact hb
  | cons d D ih =>
    rw [List.mem_cons, not_or] at hD
    exact ih (Block.mem_joined_of_used (List.mem_map.2 ⟨b, hb, if_neg hD.1⟩) hu) hD.2

/-- Freeing one block leaves the other ones in use to be freed. -/
theorem Stacks.freeAt (h : Stacks D L) {ptr : ℕ} (hptr : ptr ∉ D) :
    Stacks D (Block.freeAt ptr L) := by
  refine ⟨fun d hd => ?_, h.nodup⟩
  obtain ⟨b, hb, rfl, hu, hpos⟩ := h.used d hd
  refine ⟨b, List.mem_map.2 ⟨b, hb, if_neg fun (e : b.addr + headerSize = ptr) => hptr (e ▸ hd)⟩,
    rfl, hu, hpos⟩

/-- `coalesce` with the interrupt anywhere, on a list that is coalesced already. -/
theorem Ticks.interrupted_coalesce {tick : HeapState σ → Option (HeapState σ)}
    (h : Ticks hi live D L s u) (htick : tick s = some u) (hf : Framed hi s) (hl : Linked s.mem L) :
    Interrupted (heapAct B) tick coalesce s
      fun _ t => t = s.setMem t.mem ∧ Linked t.mem (Block.reap D L) := by
  have hfuel : hi < heapStart + headerSize * listFuel := hf.ceiling.trans_lt (by decide)
  obtain ⟨b, L', hL, hb⟩ := h.before.exists_first
  have hhead : u.head = heapStart := by
    rw [h.state]
    exact hf.head
  refine interrupted_getHead.2 ⟨⟨u, htick, ?_⟩, ?_⟩
  · rw [returns_getHead, hhead]
    exact h.returns_coalesceLoop ⟨b, hL ▸ List.mem_cons_self, hb⟩ hfuel
  · rw [hf.head, ← hb]
    exact h.interrupted_coalesceLoop htick hl (show _ = [] ++ _ from hL) (hb ▸ hfuel)

/-- The end of `kfree` and of `extend_heap` on a sound list, with the interrupt anywhere. -/
theorem SoundList.interrupted_coalesce (h : SoundList hi live L) (hf : Framed hi s)
    (hbrk : hi ≤ s.brk) (hl : Linked s.mem L) (hD : Stacks D L) :
    Interrupted (heapAct B) (reaping B D) (coalesce >>= fun _ => ret 1) s
      fun r t => r = 1 ∧ t = s.setMem t.mem ∧ Linked t.mem (Block.reap D L) := by
  obtain ⟨u, hu, ht⟩ := exists_ticks (B := B) hf hbrk h hl hD
  obtain ⟨m, hrun, hm⟩ := h.exists_coalesced (B := B) hf hl
  refine Interrupted.bind hrun ((ht.interrupted_coalesce hu hf hl).mono fun _ t ht =>
    returns_ret.2 ⟨rfl, ht⟩) ?_
  obtain ⟨v, hv, hw⟩ := exists_ticks (B := B) (s := s.setMem m)
    ⟨hf.ready, hf.head, hf.page, hf.ceiling⟩ hbrk h hm hD
  refine interrupted_ret.2 ⟨v, hv, rfl, ?_, hw.linked⟩
  rw [hw.state]
  rfl

/-- `kfree` after the interrupt has come. -/
theorem Ticks.returns_kfree (h : Ticks hi live D L s u) (hf : Framed hi s) (hbrk : s.brk = hi)
    {d : Block} (hd : d ∈ Block.reap D L) (hused : d.free = false) (hpos : 0 < d.size) :
    Returns (heapAct B) (kfree (d.addr + headerSize)) u fun r t =>
      r = 1 ∧ ∃ l, HeapInv ⟨t, {b ∈ {b ∈ live | b.1 ∉ D} | b.1 ≠ d.addr + headerSize}⟩ l := by
  have hlt := hf.hi_lt
  have hhead : u.head = linkOf (Block.reap D L) := by
    rw [h.sound.linkOf_eq, h.state]
    exact hf.head
  have hbrku : u.brk = hi := by
    rw [h.state]
    exact hbrk
  have hready : u.ready = 1 := by
    rw [h.state]
    exact hf.ready
  obtain ⟨m, hrun, hfreed⟩ := runs_kfree_blocks (B := B) hhead h.linked
    (h.sound.tiles.placed le_rfl hlt) hf.ceiling hbrku.ge hd hused hpos
  exact hrun.returns ⟨rfl, _, (h.sound.freed hlt hd hused).heapInv
    ⟨hready, hhead.trans h.sound.linkOf_eq, hf.page, hf.ceiling⟩ hbrku hfreed.linked⟩

/-- **`kfree` with the interrupt anywhere**, of a block none of whose neighbours is free. -/
theorem interrupted_kfree {d : Block} (hf : Framed hi s) (hbrk : s.brk = hi)
    (hs : SoundList hi live L) (hl : Linked s.mem L) (hD : Stacks D L) (hd : d ∈ L)
    (hused : d.free = false) (hpos : 0 < d.size) (hdD : d.addr + headerSize ∉ D)
    (hapart : Seg.NoFreeNeighbours ((Block.freeAt (d.addr + headerSize) L).map Block.seg)) :
    Interrupted (heapAct B) (reaping B D) (kfree (d.addr + headerSize)) s fun r t =>
      r = 1 ∧ ∃ l, HeapInv ⟨t, {b ∈ {b ∈ live | b.1 ∉ D} | b.1 ≠ d.addr + headerSize}⟩ l := by
  have hH := headerSize_eq
  have hlt := hf.hi_lt
  have hp := hs.tiles.placed le_rfl hlt
  set ptr := d.addr + headerSize with hptr
  obtain ⟨u, hu, ht⟩ := exists_ticks (B := B) hf hbrk.ge hs hl hD
  have hroom := ht.room ⟨d, hd, rfl⟩
  have hdu : d ∈ Block.reap D L := Block.mem_reap_of_used hd hused hdD
  obtain ⟨-, post, -, hhd⟩ := hl.header hd
  obtain ⟨-, post', -, hhu⟩ := ht.linked.header hdu
  have hbrku : u.brk = hi := by
    rw [ht.state]
    exact hbrk
  have hcall := ht.returns_kfree (B := B) hf hbrk hdu hused hpos
  rw [← hptr] at hcall
  -- the list after the block has been marked
  have hs₁ : SoundList hi {b ∈ live | b.1 ≠ ptr} (Block.freeAt ptr L) := by
    have := hs.freed hlt hd hused
    rwa [Block.joined_of_merged hapart] at this
  have hl₁ : Linked (s.mem.write32 (d.addr + 12) 1) (Block.freeAt ptr L) := hl.freeAt hp hd
  have hD₁ : Stacks D (Block.freeAt ptr L) := hD.freeAt hdD
  have hlow := hroom.1
  have hup := (hs.tiles.bounds hd).2
  unfold Block.stop at hup
  have hsub : sub32 ptr headerSize = d.addr := by
    rw [hptr, sub32_of_le (Nat.le_add_left _ _) (by omega), Nat.add_sub_cancel]
  simp only [kfree, hsub] at hcall ⊢
  rw [if_neg (by omega), if_neg (by omega)] at hcall ⊢
  refine interrupted_getBrk.2 ⟨⟨u, hu, hcall⟩, ?_⟩
  rw [returns_getBrk, hbrku, if_neg (by omega)] at hcall
  rw [hbrk, if_neg (by omega)]
  -- up to here and in the next two steps the call only reads what the interrupt leaves as it is
  refine interrupted_getMagic.2 ⟨⟨u, hu, hcall⟩, ?_⟩
  rw [returns_getMagic, hhu.magic, if_neg (fun h => h rfl)] at hcall
  rw [hhd.magic, if_neg (fun h => h rfl)]
  refine (interrupted_getFree hroom hhd).2 ⟨⟨u, hu, hcall⟩, ?_⟩
  have hfree : (if d.seg.free then 1 else 0) = 0 := if_neg (by simp [Block.seg, hused])
  rw [returns_getFree hroom hhu, hfree, if_neg (fun h => h rfl)] at hcall
  rw [hfree, if_neg (fun h => h rfl)]
  refine (interrupted_setFree hroom).2 ⟨⟨u, hu, hcall⟩, ?_⟩
  -- the block is marked, and nothing is to be joined
  refine (hs₁.interrupted_coalesce (s := s.setMem (s.mem.write32 (d.addr + 12) 1))
    ⟨hf.ready, hf.head, hf.page, hf.ceiling⟩ hbrk.ge hl₁ hD₁).mono ?_
  rintro r t ⟨hr, ht, hlinked⟩
  have hinv := (hs₁.reap hlt hD₁).heapInv (s := t) (by
    rw [ht]
    exact ⟨hf.ready, hf.head, hf.page, hf.ceiling⟩) ((congrArg HeapState.brk ht).trans hbrk) hlinked
  have e : {b ∈ {b ∈ live | b.1 ≠ ptr} | b.1 ∉ D} = {b ∈ {b ∈ live | b.1 ∉ D} | b.1 ≠ ptr} := by
    ext b
    exact and_right_comm
  exact ⟨hr, _, e ▸ hinv⟩

end JarvisOS
