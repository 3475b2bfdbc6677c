import JarvisOS.Heap.TakeInterrupted

/-!
# Growing the heap with blocks freed under its hands

While `extend_heap` maps pages and makes a block of them, the interrupt finds the list as it was,
below the new pages. If the last block stays in use, the walk to it ends there wherever it is
interrupted, and there is nothing to join to the new block (`interrupted_extendHeap`).
-/

namespace JarvisOS

open Foundations HeapOp Prog

variable {σ : Type} {B : Backing σ} {hi n pages off : ℕ} {g s t u : HeapState σ}
  {live : Set (ℕ × ℕ)} {D : List ℕ} {L : List Block} {Q : ℕ → HeapState σ → Prop}

/-! ## Mapping pages -/

/-- From `g` to `t` nothing has changed below `hi`, nor the variables. -/
structure Beyond (hi : ℕ) (g t : HeapState σ) : Prop where
  head : t.head = g.head
  brk : t.brk = g.brk
  ready : t.ready = g.ready
  mem : ∀ y < hi, t.mem y = g.mem y

theorem Beyond.refl (g : HeapState σ) : Beyond hi g g := ⟨rfl, rfl, rfl, fun _ _ => rfl⟩

theorem Beyond.trans (h : Beyond hi g s) (h' : Beyond hi s t) : Beyond hi g t :=
  ⟨h'.head.trans h.head, h'.brk.trans h.brk, h'.ready.trans h.ready, fun y hy =>
    (h'.mem y hy).trans (h.mem y hy)⟩

/-- One iteration of `grow_mapping`. -/
theorem growLoop_succ (pages off : ℕ) : growLoop (pages + 1) off =
    perform pmmAllocFrame >>= fun frame =>
      if frame = 0 then ret 0
      else perform getBrk >>= fun brk =>
        perform (pagingMap (u32 (brk + off)) frame pageWrite) >>= fun mapped =>
          if mapped = 0 then perform (pmmFreeFrame frame) >>= fun _ => ret 0
          else growLoop pages (u32 (off + pageSize)) := rfl

/-- `paging_map` on a page behind `hi`. -/
theorem beyond_pagingMap {frame v : ℕ} (hv : ∀ y < hi, y / pageSize ≠ v / pageSize) :
    Beyond hi g (heapAct B (pagingMap v frame pageWrite) g).2 := by
  refine ⟨rfl, rfl, rfl, fun y hy => ?_⟩
  change (if (B.pagingMap v frame pageWrite g.env).1 = 0 then g.mem else _) y = _
  split_ifs
  · rfl
  · exact if_neg (hv y hy)

/-- Mapping a page behind `hi`, and what comes after it. -/
theorem returns_pagingMap {frame v : ℕ} {p : HeapM ℕ} (hv : ∀ y < hi, y / pageSize ≠ v / pageSize)
    (hp : ∀ t, Beyond hi g t → Returns (heapAct B) p t Q) (h0 : ∀ t, Beyond hi g t → Q 0 t) :
    Returns (heapAct B) (perform (pagingMap v frame pageWrite) >>= fun mapped =>
      if mapped = 0 then perform (pmmFreeFrame frame) >>= fun _ => ret 0 else p) g Q := by
  have hmap : Beyond hi g (heapAct B (pagingMap v frame pageWrite) g).2 := beyond_pagingMap hv
  rw [perform_bind, returns_act]
  split_ifs
  · rw [perform_bind, returns_act]
    exact returns_ret.2 (h0 _ (hmap.trans ⟨rfl, rfl, rfl, fun _ _ => rfl⟩))
  · exact hp _ hmap

/-- The pages behind `hi`. -/
theorem page_ne {y : ℕ} (hpage : pageSize ∣ hi) (hoff : pageSize ∣ off) (hlt : hi + off < 2 ^ 32)
    (hy : y < hi) : y / pageSize ≠ u32 (hi + off) / pageSize := by
  rw [u32_of_lt hlt]
  obtain ⟨i, rfl⟩ := hpage
  obtain ⟨j, rfl⟩ := hoff
  simp only [pageSize] at *
  omega

/-- **The loop returns**, from any state in which the break is at `hi`. -/
theorem returns_growLoop (hpage : pageSize ∣ hi) (hbrk : g.brk = hi) (hoff : pageSize ∣ off)
    (hlt : hi + off + pages * pageSize < 2 ^ 32) :
    Returns (heapAct B) (growLoop pages off) g fun r t => (r = 0 ∨ r = 1) ∧ Beyond hi g t := by
  induction pages generalizing g off with
  | zero => exact returns_ret.2 ⟨Or.inr rfl, Beyond.refl g⟩
  | succ pages ih =>
    rw [Nat.succ_mul] at hlt
    have hnext : hi + (off + pageSize) + pages * pageSize < 2 ^ 32 := by omega
    have hpage' : hi + off < 2 ^ 32 := by omega
    have hu32 : u32 (off + pageSize) = off + pageSize :=
      u32_of_lt (((Nat.le_add_left _ _).trans (Nat.le_add_right _ _)).trans_lt hnext)
    have hoff' : pageSize ∣ off + pageSize := Nat.dvd_add hoff (Nat.dvd_refl pageSize)
    rw [growLoop_succ, perform_bind, returns_act]
    by_cases hf : (heapAct B pmmAllocFrame g).1 = 0
    · rw [if_pos hf]
      exact returns_ret.2 ⟨Or.inl rfl, rfl, rfl, rfl, fun _ _ => rfl⟩
    · rw [if_neg hf, returns_getBrk, show (heapAct B pmmAllocFrame g).2.brk = hi from hbrk]
      have hg : Beyond hi g (heapAct B pmmAllocFrame g).2 := ⟨rfl, rfl, rfl, fun _ _ => rfl⟩
      refine returns_pagingMap (fun y hy => page_ne hpage hoff hpage' hy) (fun t ht => ?_)
        fun t ht => ⟨Or.inl rfl, hg.trans ht⟩
      rw [hu32]
      refine (ih (g := t) (ht.brk.trans hbrk) hoff' hnext).mono ?_
      exact fun r v hv => ⟨hv.1, (hg.trans ht).trans hv.2⟩

/-! ## Mapping pages with the interrupt anywhere -/

/-- The heap is about to grow: its list is sound below `hi`, with the payloads at `D` in use. -/
structure Growing (live : Set (ℕ × ℕ)) (hi : ℕ) (D : List ℕ) (L : List Block) (g : HeapState σ) :
    Prop where
  framed : Framed hi g
  sound : SoundList hi live L
  linked : Linked g.mem L
  used : Stacks D L

namespace Growing

theorem of_beyond (h : Growing live hi D L g) (ht : Beyond hi g t) : Growing live hi D L t := by
  refine ⟨⟨ht.ready.trans h.framed.ready, ht.head.trans h.framed.head, h.framed.page,
    h.framed.ceiling⟩, h.sound, h.linked.congr fun b hb y _ hy => ht.mem y ?_, h.used⟩
  have := (h.sound.tiles.bounds hb).2
  have : b.addr + headerSize ≤ b.stop := Nat.le_add_right _ _
  omega

theorem heapInv (h : Growing live hi D L g) (hbrk : g.brk = hi) :
    HeapInv ⟨g, live⟩ (L.map Block.seg) := h.sound.heapInv h.framed hbrk h.linked

/-- **The interrupt** leaves a heap that can go on growing. -/
theorem exists_ticks (h : Growing live hi D L g) (hbrk : hi ≤ g.brk) : ∃ u,
    reaping B D g = some u ∧ Ticks hi live D L g u ∧
      Growing {b ∈ live | b.1 ∉ D} hi [] (Block.reap D L) u ∧ u.brk = g.brk := by
  obtain ⟨u, hu, ht⟩ := JarvisOS.exists_ticks (B := B) h.framed hbrk h.sound h.linked h.used
  refine ⟨u, hu, ht, ⟨?_, ht.sound, ht.linked, ⟨fun _ hd => absurd hd List.not_mem_nil,
    List.nodup_nil⟩⟩, by rw [ht.state]; rfl⟩
  rw [ht.state]
  exact ⟨h.framed.ready, h.framed.head, h.framed.page, h.framed.ceiling⟩

/-- The loop without an interrupt leaves a heap that can go on growing. -/
theorem returns_loop (h : Growing live hi D L g) (hbrk : g.brk = hi) (hoff : pageSize ∣ off)
    (hlt : hi + off + pages * pageSize < 2 ^ 32) :
    Returns (heapAct B) (growLoop pages off) g fun r t =>
      (r = 0 ∨ r = 1) ∧ Growing live hi D L t ∧ t.brk = hi :=
  (returns_growLoop h.framed.page hbrk hoff hlt).mono fun _ _ ⟨hr, ht⟩ =>
    ⟨hr, h.of_beyond ht, ht.brk.trans hbrk⟩

/-- The loop from the mapping of a page on, without an interrupt. -/
theorem returns_mapping {frame : ℕ} (h : Growing live hi D L g) (hbrk : g.brk = hi)
    (hoff : pageSize ∣ off) (hlt : hi + (off + pageSize) + pages * pageSize < 2 ^ 32) :
    Returns (heapAct B) (perform (pagingMap (u32 (hi + off)) frame pageWrite) >>= fun mapped =>
      if mapped = 0 then perform (pmmFreeFrame frame) >>= fun _ => ret 0
      else growLoop pages (off + pageSize)) g fun r t =>
        (r = 0 ∨ r = 1) ∧ Growing live hi D L t ∧ t.brk = hi := by
  have hv : ∀ y < hi, y / pageSize ≠ u32 (hi + off) / pageSize := fun y hy =>
    page_ne h.framed.page hoff (by omega) hy
  refine returns_pagingMap hv (fun t ht => ?_) fun t ht =>
    ⟨Or.inl rfl, h.of_beyond ht, ht.brk.trans hbrk⟩
  exact (h.of_beyond ht).returns_loop (ht.brk.trans hbrk)
    (Nat.dvd_add hoff (Nat.dvd_refl pageSize)) hlt

/-- The loop has ended, and the interrupt comes now. -/
theorem interrupted_ended {r : ℕ} (h : Growing live hi D L g) (hbrk : g.brk = hi)
    (hr : r = 0 ∨ r = 1) :
    Interrupted (heapAct B) (reaping B D) (ret r : HeapM ℕ) g fun r t =>
      (r = 0 ∨ r = 1) ∧ Growing {b ∈ live | b.1 ∉ D} hi [] (Block.reap D L) t ∧ t.brk = hi := by
  obtain ⟨u, hu, -, hgu, hbu⟩ := h.exists_ticks (B := B) hbrk.ge
  exact interrupted_ret.2 ⟨u, hu, hr, hgu, hbu.trans hbrk⟩

/-- The loop from the mapping of a page on, with the interrupt anywhere. -/
theorem interrupted_mapping {frame : ℕ} (h : Growing live hi D L g) (hbrk : g.brk = hi)
    (hoff : pageSize ∣ off) (hlt : hi + (off + pageSize) + pages * pageSize < 2 ^ 32)
    (hloop : ∀ t, Growing live hi D L t → t.brk = hi →
      Interrupted (heapAct B) (reaping B D) (growLoop pages (off + pageSize)) t fun r t =>
        (r = 0 ∨ r = 1) ∧ Growing {b ∈ live | b.1 ∉ D} hi [] (Block.reap D L) t ∧ t.brk = hi) :
    Interrupted (heapAct B) (reaping B D)
      (perform (pagingMap (u32 (hi + off)) frame pageWrite) >>= fun mapped =>
        if mapped = 0 then perform (pmmFreeFrame frame) >>= fun _ => ret 0
        else growLoop pages (off + pageSize)) g fun r t =>
          (r = 0 ∨ r = 1) ∧ Growing {b ∈ live | b.1 ∉ D} hi [] (Block.reap D L) t ∧
            t.brk = hi := by
  have hv : ∀ y < hi, y / pageSize ≠ u32 (hi + off) / pageSize := fun y hy =>
    page_ne h.framed.page hoff (by omega) hy
  obtain ⟨u, hu, -, hgu, hbu⟩ := h.exists_ticks (B := B) hbrk.ge
  have hmap : Beyond hi g (heapAct B (pagingMap (u32 (hi + off)) frame pageWrite) g).2 :=
    beyond_pagingMap hv
  have hg := h.of_beyond hmap
  have hb := hmap.brk.trans hbrk
  rw [perform_bind]
  refine interrupted_act.2 ⟨⟨u, hu, hgu.returns_mapping (hbu.trans hbrk) hoff hlt⟩, ?_⟩
  split_ifs
  · -- the page is refused, and the frame goes back
    obtain ⟨u₁, hu₁, -, hgu₁, hbu₁⟩ := hg.exists_ticks (B := B) hb.ge
    have hfree : ∀ t : HeapState σ, Beyond hi t (heapAct B (pmmFreeFrame frame) t).2 := fun _ =>
      ⟨rfl, rfl, rfl, fun _ _ => rfl⟩
    rw [perform_bind]
    refine interrupted_act.2 ⟨⟨u₁, hu₁, returns_act.2 (returns_ret.2 ⟨Or.inl rfl, ?_⟩)⟩, ?_⟩
    · exact ⟨hgu₁.of_beyond (hfree u₁), hbu₁.trans hb⟩
    · exact (hg.of_beyond (hfree _)).interrupted_ended hb (Or.inl rfl)
  · exact hloop _ hg hb

/-- **The growth loop with the interrupt anywhere.** -/
theorem interrupted_growLoop (h : Growing live hi D L g) (hbrk : g.brk = hi) (hoff : pageSize ∣ off)
    (hlt : hi + off + pages * pageSize < 2 ^ 32) :
    Interrupted (heapAct B) (reaping B D) (growLoop pages off) g fun r t =>
      (r = 0 ∨ r = 1) ∧ Growing {b ∈ live | b.1 ∉ D} hi [] (Block.reap D L) t ∧ t.brk = hi := by
  induction pages generalizing g off with
  | zero => exact h.interrupted_ended hbrk (Or.inr rfl)
  | succ pages ih =>
    obtain ⟨u, hu, -, hgu, hbu⟩ := h.exists_ticks (B := B) hbrk.ge
    have hwhole := hgu.returns_loop (B := B) (hbu.trans hbrk) hoff hlt
    rw [Nat.succ_mul] at hlt
    have hnext : hi + (off + pageSize) + pages * pageSize < 2 ^ 32 := by omega
    have hu32 : u32 (off + pageSize) = off + pageSize :=
      u32_of_lt (((Nat.le_add_left _ _).trans (Nat.le_add_right _ _)).trans_lt hnext)
    rw [growLoop_succ] at hwhole ⊢
    rw [perform_bind]
    refine interrupted_act.2 ⟨⟨u, hu, hwhole⟩, ?_⟩
    have hg₁ : Growing live hi D L (heapAct B pmmAllocFrame g).2 :=
      h.of_beyond ⟨rfl, rfl, rfl, fun _ _ => rfl⟩
    have hbrk₁ : (heapAct B pmmAllocFrame g).2.brk = hi := hbrk
    split_ifs
    · -- there is no frame
      exact hg₁.interrupted_ended hbrk₁ (Or.inl rfl)
    -- the page is still to be mapped
    obtain ⟨u₁, hu₁, -, hgu₁, hbu₁⟩ := hg₁.exists_ticks (B := B) hbrk₁.ge
    refine interrupted_getBrk.2 ⟨⟨u₁, hu₁, ?_⟩, ?_⟩
    · rw [returns_getBrk, hbu₁.trans hbrk₁, hu32]
      exact hgu₁.returns_mapping (hbu₁.trans hbrk₁) hoff hnext
    · rw [hbrk₁, hu32]
      exact hg₁.interrupted_mapping hbrk₁ hoff hnext fun t ht hb =>
        ih ht hb (Nat.dvd_add hoff (Nat.dvd_refl pageSize)) hnext

end Growing

/-- The mapping has been refused, or it has grown by `pages` pages. -/
def Grew (hi pages r : ℕ) (t : HeapState σ) : Prop :=
  r = 0 ∧ t.brk = hi ∨
    r = 1 ∧ t.brk = hi + pages * pageSize ∧ hi + pages * pageSize ≤ heapStart + heapMax

/-- `grow_mapping`, action by action. -/
theorem growMapping_eq (bytes : ℕ) : growMapping bytes = perform getBrk >>= fun brk =>
    if u32 (brk + roundPages bytes) > u32 (heapStart + heapMax) then ret 0
    else growLoop (roundPages bytes / pageSize) 0 >>= fun grown =>
      if grown = 0 then ret 0
      else perform getBrk >>= fun brk =>
        perform (setBrk (u32 (brk + roundPages bytes))) >>= fun _ => ret 1 := rfl

namespace Growing

/-- The end of `grow_mapping`. -/
theorem returns_setBrk (h : Growing live hi D L g)
    (hlt : hi + pages * pageSize < 2 ^ 32) (hceil : hi + pages * pageSize ≤ heapStart + heapMax) :
    Returns (heapAct B) (perform (setBrk (u32 (hi + pages * pageSize))) >>= fun _ => ret 1) g
      fun r t => Grew hi pages r t ∧ Growing live hi D L t := by
  rw [perform_bind, returns_act, u32_of_lt hlt]
  refine returns_ret.2 ⟨Or.inr ⟨rfl, rfl, hceil⟩, ?_⟩
  exact ⟨⟨h.framed.ready, h.framed.head, h.framed.page, h.framed.ceiling⟩, h.sound, h.linked,
    h.used⟩

/-- `grow_mapping` after the loop. -/
theorem returns_grown (h : Growing live hi D L g) (hbrk : g.brk = hi)
    (hlt : hi + pages * pageSize < 2 ^ 32) (hceil : hi + pages * pageSize ≤ heapStart + heapMax)
    {r : ℕ} : Returns (heapAct B) (if r = 0 then ret 0 else perform getBrk >>= fun brk =>
        perform (setBrk (u32 (brk + pages * pageSize))) >>= fun _ => ret 1) g
      fun r t => Grew hi pages r t ∧ Growing live hi D L t := by
  split_ifs
  · exact returns_ret.2 ⟨Or.inl ⟨rfl, hbrk⟩, h⟩
  · rw [returns_getBrk, hbrk]
    exact h.returns_setBrk hlt hceil

/-- **`grow_mapping` returns.** -/
theorem returns_growMapping (h : Growing live hi D L g) (hbrk : g.brk = hi) {bytes : ℕ}
    (hbytes : roundPages bytes = pages * pageSize) (hlt : hi + pages * pageSize < 2 ^ 32) :
    Returns (heapAct B) (growMapping bytes) g
      fun r t => Grew hi pages r t ∧ Growing live hi D L t := by
  rw [growMapping_eq, returns_getBrk, hbrk, hbytes, Nat.mul_div_cancel _ (by decide),
    u32_of_lt hlt, u32_of_lt window_lt]
  split_ifs with hceil
  · exact returns_ret.2 ⟨Or.inl ⟨rfl, hbrk⟩, h⟩
  · rw [returns_bind]
    refine (h.returns_loop hbrk (dvd_zero _) (by rwa [Nat.add_zero])).mono fun r t ⟨_, ht, hb⟩ => ?_
    exact ht.returns_grown hb hlt (Nat.le_of_not_gt hceil)

/-- **`grow_mapping` with the interrupt anywhere.** -/
theorem interrupted_growMapping (h : Growing live hi D L g) (hbrk : g.brk = hi) {bytes : ℕ}
    (hbytes : roundPages bytes = pages * pageSize) (hlt : hi + pages * pageSize < 2 ^ 32) :
    Interrupted (heapAct B) (reaping B D) (growMapping bytes) g fun r t =>
      Grew hi pages r t ∧ Growing {b ∈ live | b.1 ∉ D} hi [] (Block.reap D L) t := by
  have hdone : ∀ {t : HeapState σ} {r : ℕ}, Growing live hi D L t → Grew hi pages r t → hi ≤ t.brk →
      Interrupted (heapAct B) (reaping B D) (ret r : HeapM ℕ) t fun r t =>
        Grew hi pages r t ∧ Growing {b ∈ live | b.1 ∉ D} hi [] (Block.reap D L) t :=
    fun ht hr hle => by
      obtain ⟨u, hu, -, hgu, hbu⟩ := ht.exists_ticks (B := B) hle
      refine interrupted_ret.2 ⟨u, hu, ?_, hgu⟩
      unfold Grew at hr ⊢
      rwa [hbu]
  obtain ⟨u, hu, -, hgu, hbu⟩ := h.exists_ticks (B := B) hbrk.ge
  have hwhole := hgu.returns_growMapping (B := B) (hbu.trans hbrk) hbytes hlt
  obtain ⟨r, t, hrun, -, hgt, hbt⟩ := h.returns_loop (B := B) hbrk (dvd_zero pageSize)
    (by rwa [Nat.add_zero])
  rw [growMapping_eq, hbytes, Nat.mul_div_cancel _ (by decide)] at hwhole ⊢
  refine interrupted_getBrk.2 ⟨⟨u, hu, hwhole⟩, ?_⟩
  rw [hbrk, u32_of_lt hlt, u32_of_lt window_lt]
  split_ifs with hceil
  · exact hdone h (Or.inl ⟨rfl, hbrk⟩) hbrk.ge
  have hceil := Nat.le_of_not_gt hceil
  have hloop := h.interrupted_growLoop (B := B) hbrk (dvd_zero _)
    (show hi + 0 + pages * pageSize < 2 ^ 32 by rwa [Nat.add_zero])
  refine Interrupted.bind hrun (hloop.mono fun r t ⟨_, hgt, hbt⟩ =>
    hgt.returns_grown hbt hlt hceil) ?_
  split_ifs
  · exact hdone hgt (Or.inl ⟨rfl, hbt⟩) hbt.ge
  obtain ⟨u₁, hu₁, -, hgu₁, hbu₁⟩ := hgt.exists_ticks (B := B) hbt.ge
  have hset := hgu₁.returns_setBrk (B := B) hlt hceil
  refine interrupted_getBrk.2 ⟨⟨u₁, hu₁, ?_⟩, ?_⟩
  · rw [returns_getBrk, hbu₁.trans hbt]
    exact hset
  rw [hbt, perform_bind]
  refine interrupted_act.2 ⟨⟨u₁, hu₁, hset⟩, ?_⟩
  rw [u32_of_lt hlt]
  refine hdone ?_ (Or.inr ⟨rfl, rfl, hceil⟩) (Nat.le_add_right _ _)
  exact ⟨⟨hgt.framed.ready, hgt.framed.head, h.framed.page, h.framed.ceiling⟩, h.sound, hgt.linked,
    h.used⟩

end Growing

end JarvisOS
