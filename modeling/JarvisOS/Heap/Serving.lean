import JarvisOS.Heap.KfreeInterrupted

/-!
# `kmalloc` from any of its steps on

What `kmalloc` still does after an interrupt starts from a heap that satisfies the invariant, but
not with what the search has seen: the block at hand need not be the first that fits, and an
extension may come where something fits. Each step serves the request nevertheless (`Allotted`).
-/

namespace JarvisOS

open Foundations HeapOp Prog

variable {σ : Type} {B : Backing σ} {s t : HeapState σ} {live : Set (ℕ × ℕ)} {n : ℕ}
  {l pre post : List Seg} {x : Seg} {m : Mem}

/-- `kmalloc` has returned `r` for `n` bytes: a null pointer, or a fresh allocation. -/
def Allotted (live : Set (ℕ × ℕ)) (n r : ℕ) (t : HeapState σ) : Prop :=
  (∃ l, HeapInv ⟨t, if r = 0 then live else insert (r, n) live⟩ l) ∧ (r ≠ 0 → ∀ m, (r, m) ∉ live)

theorem HeapInv.allotted_zero (h : HeapInv ⟨s, live⟩ l) : Allotted live n 0 s :=
  ⟨⟨l, by rwa [if_pos rfl]⟩, fun h => absurd rfl h⟩

/-- **A block that fits is taken.** -/
theorem HeapInv.allotted_carve {least : ℕ} (h : HeapInv ⟨s, live⟩ (pre ++ x :: post))
    (hx : x.Fits (align8 n)) (h1 : 1 ≤ n) (h2 : n < 2 ^ 31) (hleast : 0 < least)
    (hm : Holds m heapStart (pre ++ Seg.carve headerSize least (align8 n) x ++ post) 0) :
    Allotted live n (heapStart + Seg.span headerSize pre + headerSize) (s.setMem m) := by
  obtain ⟨hsize, hle, -⟩ := payloadSize_align8 h1 h2
  obtain ⟨htiled, hacc⟩ := h
  have hne : heapStart + Seg.span headerSize pre + headerSize ≠ 0 := by
    rw [headerSize_eq]
    omega
  refine ⟨⟨_, htiled.carve hx hsize hleast hm, ?_⟩, fun _ k hk => ?_⟩
  · rw [if_neg hne]
    exact hacc.carve hx hle
  · obtain ⟨len, -, hin⟩ := hacc.sized _ hk
    exact Seg.not_mem_inUse_of_free headerSize (by decide) hx.1 hin rfl

theorem HeapInv.returns_takeBlock (h : HeapInv ⟨s, live⟩ (pre ++ x :: post))
    (hx : x.Fits (align8 n)) (h1 : 1 ≤ n) (h2 : n < 2 ^ 31) :
    Returns (heapAct B) (takeBlock (heapStart + Seg.span headerSize pre) (align8 n)) s
      fun r t => r ≠ 0 ∧ Allotted live n r t := by
  obtain ⟨m, hrun, hm, -⟩ := runs_takeBlock_tiled (B := B) h.tiled hx
  refine hrun.returns ⟨?_, h.allotted_carve hx h1 h2 (by decide) hm⟩
  rw [headerSize_eq]
  omega

/-- A block that is marked is taken whole. -/
theorem HeapInv.allotted_whole (h : HeapInv ⟨s, live⟩ (pre ++ x :: post))
    (hx : x.Fits (align8 n)) (h1 : 1 ≤ n) (h2 : n < 2 ^ 31) {b : ℕ}
    (hb : b = heapStart + Seg.span headerSize pre) :
    Allotted live n (b + headerSize) (s.setMem (s.mem.write32 (b + 12) 0)) := by
  subst hb
  have hH := headerSize_eq
  obtain ⟨hholds, hhead, hpost⟩ := Holds.append_iff.1 h.tiled.headers
  have hwhole : Seg.carve headerSize (x.size + 1) (align8 n) x = [⟨x.size, false⟩] :=
    if_neg (by omega)
  refine h.allotted_carve hx h1 h2 (Nat.succ_pos x.size) ?_
  rw [hwhole, List.append_assoc, List.singleton_append, Holds.append_iff]
  exact ⟨hholds.congr fun y _ hy => Mem.write32_apply_of_disjoint _ _ (by omega),
    hhead.setFree false, hpost.congr fun y hy _ => Mem.write32_apply_of_disjoint _ _ (by omega)⟩

/-- The end of `kmalloc`, with whatever has become of the block. -/
theorem HeapInv.returns_setFree (h : HeapInv ⟨s, live⟩ (pre ++ x :: post))
    (hx : x.Fits (align8 n)) (h1 : 1 ≤ n) (h2 : n < 2 ^ 31) {b : ℕ}
    (hb : b = heapStart + Seg.span headerSize pre) :
    Returns (heapAct B) (do let _ ← setFree b 0; return u32 (b + headerSize)) s
      fun r t => r ≠ 0 ∧ Allotted live n r t := by
  have hH := headerSize_eq
  have hroom : Room heapStart s.brk b := by
    rw [hb]
    exact (h.tiled.spans_drop le_rfl h.tiled.brk_lt).room
  have hup := hroom.2
  rw [JarvisOS.returns_setFree hroom, u32_of_lt (by omega)]
  exact returns_ret.2 ⟨by omega, h.allotted_whole hx h1 h2 hb⟩

/-- `extend_heap` leaves a heap. -/
theorem HeapInv.returns_extendHeap (h : HeapInv ⟨s, live⟩ l) (h1 : 1 ≤ n) (h2 : n ≤ heapMax) :
    Returns (heapAct B) (extendHeap (align8 n)) s fun _ t => ∃ l', HeapInv ⟨t, live⟩ l' := by
  have hwl := window_lt
  have htiled : Tiled s l := h.tiled
  obtain ⟨-, hle, hsize⟩ := payloadSize_align8 h1 (h2.trans_lt (by decide))
  obtain ⟨hpages, -, -, -⟩ := growthPages_spec hsize
  have hlt := growth_lt_of_le htiled h2
  have hstart : heapStart ≤ s.brk := htiled.tiles ▸ Nat.le_add_right _ _
  by_cases hbelow : s.brk + growthPages (align8 n) * pageSize ≤ heapStart + heapMax
  · by_cases hall : (mapPages B (growthPages (align8 n)) s.brk s).1 = growthPages (align8 n)
    · obtain ⟨g, m, t, hgrow, hblock, -, hgbrk, ht⟩ :=
        runs_extendHeap_granted htiled hsize hbelow hall
      refine (runs_extendHeap_of_grown hgrow
        (hblock.mono (InWindow.mono (hgbrk.trans_le hbelow)))).returns ⟨_, ht.tiled htiled, ?_⟩
      refine h.accounts.congr ?_
      rw [Seg.inUse_merge, Seg.inUse_append, Seg.inUse_cons_free headerSize rfl, Seg.inUse_nil,
        List.append_nil]
    · have hless := Nat.lt_of_le_of_ne (mapPages_le _ s.brk s) hall
      have hend := (Nat.add_le_add_left (Nat.mul_le_mul_right pageSize hless.le) s.brk).trans
        hbelow
      have hpass : u32 (s.brk + growthPages (align8 n) * pageSize) ≤ heapStart + heapMax := by
        rw [u32_of_lt hlt]
        exact hbelow
      exact (runs_extendHeap_of_refused (runs_growMapping_refused hpages hstart hpass hless
        hend)).returns ⟨l, htiled.mapPages (hend.trans hwl.le), h.accounts⟩
  · exact (runs_extendHeap_of_refused (runs_growMapping_ceiling (B := B) hpages htiled.brk_lt
      (by rw [u32_of_lt hlt]; omega) heapStart (heapStart + heapMax))).returns ⟨l, h⟩

/-- An attempt after its search has come to the end of the list. -/
theorem HeapInv.returns_extend (h : HeapInv ⟨s, live⟩ l) (h1 : 1 ≤ n) (h2 : n ≤ heapMax)
    {p : HeapM ℕ} (hp : ∀ {t : HeapState σ} {l'}, HeapInv ⟨t, live⟩ l' →
      Returns (heapAct B) p t (Allotted live n)) :
    Returns (heapAct B) (do
      let extended ← extendHeap (align8 n)
      if extended = 0 then return 0
      p) s (Allotted live n) := by
  rw [returns_bind]
  refine (h.returns_extendHeap h1 h2).mono fun r t ⟨l', ht⟩ => ?_
  split_ifs
  · exact returns_ret.2 ht.allotted_zero
  · exact hp ht

/-- **The remaining attempts** serve the request. -/
theorem HeapInv.returns_attemptLoop (h : HeapInv ⟨s, live⟩ l) (h1 : 1 ≤ n) (h2 : n ≤ heapMax)
    (attempts : ℕ) : Returns (heapAct B) (attemptLoop (align8 n) attempts) s (Allotted live n) := by
  have h2' : n < 2 ^ 31 := h2.trans_lt (by decide)
  induction attempts generalizing s l with
  | zero => exact returns_ret.2 h.allotted_zero
  | succ attempts ih =>
    rcases Seg.firstFit (align8 n) l with hno | ⟨pre, x, post, rfl, hpre, hx⟩
    · rw [attemptLoop, returns_getHead, h.tiled.head]
      have hnone := (runs_searchLoop_none (B := B) loadsIn_inWindow h.tiled.length_lt
        h.tiled.headers (h.tiled.spans le_rfl h.tiled.brk_lt) hno).1
      obtain ⟨y, l', rfl⟩ := List.exists_cons_of_ne_nil h.tiled.ne_nil
      exact Returns.bind_of_run hnone (h.returns_extend h1 h2 ih)
    · obtain ⟨p, t, hrun, ht⟩ := runs_attemptLoop_found (B := B) attempts h.tiled hpre hx
      have hm : t = s.setMem t.mem := ht.state
      rw [hm] at hrun
      refine hrun.returns ?_
      rw [ht.payload]
      exact h.allotted_carve hx h1 h2' (by decide) ht.list

/-- **A call** serves the request. -/
theorem HeapInv.returns_kmalloc (h : HeapInv ⟨s, live⟩ l) (h1 : 1 ≤ n) (h2 : n ≤ heapMax) :
    Returns (heapAct B) (JarvisOS.kmalloc n) s (Allotted live n) := by
  rw [JarvisOS.kmalloc, perform_bind, returns_act,
    show (heapAct B getReady s).1 = 1 from h.tiled.ready,
    if_neg Nat.one_ne_zero, if_neg (Nat.one_le_iff_ne_zero.1 h1)]
  exact h.returns_attemptLoop h1 h2 2

end JarvisOS
