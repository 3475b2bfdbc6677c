import JarvisOS.Heap.CoalesceHarm
import JarvisOS.Heap.KmallocInterrupted

/-!
# Where an interrupt harms `kfree`

If a neighbour of the block is free, there is a moment at which freeing stacks harms the call
(`Calling.apart_of_kfree`): `interrupted_kfree` asks for no more than it needs. Where nothing is
left behind the two blocks that the call joins, this rests on the word at the null pointer's link.
-/

namespace JarvisOS

open Foundations HeapOp Prog

variable {σ : Type} {B : Backing σ} {hi : ℕ} {s t : HeapState σ} {live : Set (ℕ × ℕ)}
  {D : List ℕ} {L pre post : List Block} {p c : Block}

/-- The first two free neighbours. -/
theorem Block.exists_free_neighbours (h : ¬ Seg.NoFreeNeighbours (L.map Block.seg)) :
    ∃ pre p c post, L = pre ++ p :: c :: post ∧ p.free = true ∧ c.free = true ∧
      Seg.NoFreeNeighbours ((pre ++ [p]).map Block.seg) := by
  induction L with
  | nil => exact absurd List.IsChain.nil h
  | cons b L ih =>
    cases L with
    | nil => exact absurd (List.IsChain.singleton _) h
    | cons d L =>
      by_cases hbd : b.free = true ∧ d.free = true
      · exact ⟨[], b, d, L, rfl, hbd.1, hbd.2, List.IsChain.singleton _⟩
      · obtain ⟨pre, p, c, post, e, hp, hc, hchain⟩ := ih fun hd =>
          h (List.isChain_cons_cons.2 ⟨hbd, hd⟩)
        refine ⟨b :: pre, p, c, post, congrArg (b :: ·) e, hp, hc, ?_⟩
        cases pre with
        | nil =>
          rw [(List.cons.inj e).1] at hbd
          exact List.isChain_cons_cons.2 ⟨hbd, hchain⟩
        | cons q pre =>
          rw [(List.cons.inj e).1] at hbd
          exact List.isChain_cons_cons.2 ⟨hbd, hchain⟩

namespace Merging

/-- **Free neighbours are joined unsafely**, if the interrupt comes at the wrong moment. -/
theorem exists_unsafe (h : Merging hi D pre p c post s) (hbrk : s.brk = hi) (hD : D ≠ [])
    (hlive : ∀ f ∈ pre ++ p :: c :: post, f.free = false → f.addr + headerSize ∉ D →
      ∃ n, (f.addr + headerSize, n) ∈ live)
    (hnull : s.mem.read32 8 = 0) :
    ¬ Interrupted (heapAct B) (reaping B D) coalesce s fun _ t => HeapSafe ⟨t, live⟩ := by
  intro hI
  by_cases hpre : ∀ w ∈ pre.getLast?, Block.Kept D w
  · obtain ⟨q, R, -, -, eR, -⟩ := h.exists_tick (B := B) hpre
    cases R with
    | nil =>
      -- the size of the second block is counted twice
      obtain ⟨t, hsafe, ht, hl, htiles⟩ := h.exists_null hpre eR hnull hI
      obtain ⟨htiles', -⟩ := hsafe.of_linked hl (fun _ => htiles.addr_ne_zero) (by
        rw [htiles.linkOf_eq (by simp), ht]
        exact h.framed.head)
      have := htiles.unique htiles'
      rw [ht, show (s.setMem t.mem).brk = s.brk from rfl, hbrk, headerSize_eq] at this
      omega
    | cons f R =>
      -- a live allocation is not in the list any more
      obtain ⟨t, M, hsafe, ht, hl, htiles, hf, hfu, hfD, hnot⟩ :=
        h.exists_swallowed hD hpre eR hI
      obtain ⟨n, hn⟩ := hlive f hf hfu hfD
      obtain ⟨-, hin⟩ := hsafe.of_linked hl (fun _ => htiles.addr_ne_zero) (by
        rw [htiles.linkOf_eq fun e => ?_, ht]
        · exact h.framed.head
        · rw [e] at htiles
          obtain ⟨h1, h2, -⟩ := h.placed_at.room
          have hend : heapStart = hi := htiles
          rw [headerSize_eq] at h2
          omega)
      obtain ⟨b, hb, e⟩ := hin _ hn
      exact hnot b hb (Nat.add_right_cancel e)
  · -- the block in front of the two is freed
    push Not at hpre
    obtain ⟨w, hw, hnot⟩ := hpre
    have hwD : w.addr + headerSize ∈ D := by
      by_contra hwD
      obtain ⟨pre', rfl⟩ := List.getLast?_eq_some_iff.1 hw
      have := h.apart
      rw [List.append_assoc, List.map_append] at this
      have hwp := (List.isChain_cons_cons.1 (List.isChain_append.1 this).2.1).1
      exact hnot ⟨Bool.eq_false_of_not_eq_true fun hwf => hwp ⟨hwf, h.first⟩, hwD⟩
    obtain ⟨t, hsafe, hno⟩ := h.exists_stale hw hwD hI
    exact hno live hsafe

end Merging

/-- **`kfree` beside a free block** is not safe wherever the interrupt comes. -/
theorem Calling.apart_of_kfree {d : Block} (h : Calling live hi D L s) (hD : D ≠ [])
    (hnull : s.mem.read32 8 = 0) (hd : d ∈ L) (hused : d.free = false) (hpos : 0 < d.size)
    (hdD : d.addr + headerSize ∉ D)
    (hI : Interrupted (heapAct B) (reaping B D) (kfree (d.addr + headerSize)) s fun _ t =>
      HeapSafe ⟨t, {b ∈ {b ∈ live | b.1 ∉ D} | b.1 ≠ d.addr + headerSize}⟩) :
    Seg.NoFreeNeighbours ((Block.freeAt (d.addr + headerSize) L).map Block.seg) := by
  have hH := headerSize_eq
  by_contra hno
  set ptr := d.addr + headerSize with hptr
  obtain ⟨pre, p, c, post, e, hpf, hcf, hapart⟩ := Block.exists_free_neighbours hno
  have hlt := h.framed.hi_lt
  have hp := h.sound.tiles.placed le_rfl hlt
  obtain ⟨-, post', -, hhd⟩ := h.linked.header hd
  have hlow := hp.lower d hd
  have hup := hp.upper d hd
  unfold Block.stop at hup
  have hroom : Room heapStart hi d.addr := ⟨hlow, by omega, hlt⟩
  have hsub : sub32 ptr headerSize = d.addr := by
    rw [hptr, sub32_of_le (Nat.le_add_left _ _) (by omega), Nat.add_sub_cancel]
  -- the call as far as `coalesce`
  simp only [kfree, hsub] at hI
  rw [if_neg (by omega), if_neg (by omega)] at hI
  replace hI := (interrupted_getBrk.1 hI).2
  rw [h.brk, if_neg (by omega)] at hI
  replace hI := (interrupted_getMagic.1 hI).2
  rw [hhd.magic, if_neg (fun h => h rfl)] at hI
  replace hI := ((interrupted_getFree hroom hhd).1 hI).2
  rw [if_neg (show ¬ d.seg.free = true by simp [Block.seg, hused]), if_neg (fun h => h rfl)] at hI
  replace hI := ((interrupted_setFree hroom).1 hI).2.of_bind
  have hlinked := h.linked.freeAt hp hd
  have htiles := h.sound.tiles.freeAt ptr
  have hstacks := h.used.freeAt hdD
  have hmerging : Merging hi D pre p c post (s.setMem (s.mem.write32 (d.addr + 12) 1)) := by
    rw [e] at hlinked htiles hstacks
    exact ⟨⟨h.framed.ready, h.framed.head, h.framed.page, h.framed.ceiling⟩, h.brk.ge, htiles,
      hlinked, hstacks, hapart, hpf, hcf⟩
  refine hmerging.exists_unsafe (B := B) h.brk hD (fun f hf hfu hfD => ?_) ?_
    (hI.mono fun _ t ht => (returns_ret.1 ht))
  · rw [← e] at hf
    obtain ⟨b, hb, -, -, -, hsame, hfreed⟩ := Block.mem_freeAt hf
    have hne : f.addr + headerSize ≠ ptr := fun hfp => by
      rw [hfreed hfp] at hfu
      cases hfu
    obtain ⟨n, hn⟩ := h.sound.live_of_used (hsame hne ▸ hb) hfu
    exact ⟨n, ⟨hn, hfD⟩, hne⟩
  · refine Eq.trans (Mem.read32_congr fun y h1 h2 => ?_) hnull
    refine Mem.write32_apply_of_disjoint _ _ ?_
    simp only [heapStart] at hlow
    omega

end JarvisOS
