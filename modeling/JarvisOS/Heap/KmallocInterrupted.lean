import Mathlib.Data.List.TakeWhile
import JarvisOS.Heap.AppendInterrupted

/-!
# `kmalloc` with blocks freed under its hands

Whether the interrupt can do harm is a matter of the list before the call (`ClearAlloc`): of the
block that the search takes, of the one behind it, of the blocks that freeing removes from the list,
and of the last block if the heap grows. If not, `kmalloc` serves the request wherever the interrupt
comes (`interrupted_kmalloc`).
-/

namespace JarvisOS

open Foundations HeapOp Prog

variable {σ : Type} {B : Backing σ} {hi n attempts : ℕ} {s t u : HeapState σ}
  {live : Set (ℕ × ℕ)} {D : List ℕ} {L pre post : List Block} {b : Block}

/-- The request finds the heap with nothing to be afraid of: `D` are the payloads that an interrupt
would free, and `grows` says whether the heap could grow for the request.

Where a block is found, none that is removed from the list up to it is large enough to be taken
instead, and if it is split, the block behind it is not freed. Where none is found, none that is
removed is large enough, and if the heap grows, its last block is in use and is not freed. -/
def ClearAlloc (size : ℕ) (D : List ℕ) (L : List Block) (grows : Prop) : Prop :=
  match L.dropWhile fun c => ¬ c.seg.Fits size with
  | b :: post => (∀ z ∈ Block.reapLost D L, z.addr ≤ b.addr → z.size < size) ∧
      (size + headerSize + minSplit ≤ b.size → ∀ c ∈ post.head?, c.addr + headerSize ∉ D)
  | [] => (∀ z ∈ Block.reapLost D L, z.size < size) ∧
      (grows → ∀ c ∈ L.getLast?, Block.Kept D c)

/-- The list is split at the first block that fits, or none does. -/
theorem Block.firstFit_cases (size : ℕ) (L : List Block) :
    (∃ pre b post, (L.dropWhile fun c => ¬ c.seg.Fits size) = b :: post ∧ L = pre ++ b :: post ∧
      (∀ c ∈ pre, ¬ c.seg.Fits size) ∧ b.seg.Fits size) ∨
    (L.dropWhile fun c => ¬ c.seg.Fits size) = [] ∧ ∀ c ∈ L, ¬ c.seg.Fits size := by
  cases hb : L.dropWhile fun c => ¬ c.seg.Fits size with
  | nil =>
    refine Or.inr ⟨rfl, fun c hc => ?_⟩
    simpa using List.dropWhile_eq_nil_iff.1 hb c hc
  | cons b post =>
    refine Or.inl ⟨L.takeWhile fun c => ¬ c.seg.Fits size, b, post, rfl, ?_, fun c hc => ?_, ?_⟩
    · rw [← hb, List.takeWhile_append_dropWhile]
    · simpa using List.mem_takeWhile_imp hc
    · have := List.head?_dropWhile_not (fun c : Block => decide (¬ c.seg.Fits size)) L
      rw [hb] at this
      simpa using this

theorem ClearAlloc.cases {size : ℕ} {grows : Prop} (h : ClearAlloc size D L grows) :
    (∃ pre b post, L = pre ++ b :: post ∧ (∀ c ∈ pre, ¬ c.seg.Fits size) ∧ b.seg.Fits size ∧
      (∀ z ∈ Block.reapLost D L, z.addr ≤ b.addr → z.size < size) ∧
      (size + headerSize + minSplit ≤ b.size → ∀ c ∈ post.head?, c.addr + headerSize ∉ D)) ∨
    ((∀ c ∈ L, ¬ c.seg.Fits size) ∧ (∀ z ∈ Block.reapLost D L, z.size < size) ∧
      (grows → ∀ c ∈ L.getLast?, Block.Kept D c)) := by
  unfold ClearAlloc at h
  rcases Block.firstFit_cases size L with ⟨pre, b, post, hb, hL, hpre, hfit⟩ | ⟨hnil, hno⟩
  · rw [hb] at h
    exact Or.inl ⟨pre, b, post, hL, hpre, hfit, h⟩
  · rw [hnil] at h
    exact Or.inr ⟨hno, h⟩

/-- A block behind one that is kept adds nothing to what is removed. -/
theorem Block.reapLost_append {p c : Block} (hp : Block.Kept D p) (hc : c.free = true) :
    ∀ z ∈ Block.reapLost D (L ++ [p] ++ [c]), z ∈ Block.reapLost D (L ++ [p]) := by
  induction D generalizing L with
  | nil => exact fun z hz => absurd hz List.not_mem_nil
  | cons d D ih =>
    have hne : p.addr + headerSize ≠ d := fun e => hp.2 (e ▸ List.mem_cons_self)
    have hD : Block.Kept D p := ⟨hp.1, fun h => hp.2 (List.mem_cons_of_mem d h)⟩
    have hcf : ({ c with free := true } : Block) = c := by rw [← hc]
    have hpc : Block.joined [p, c] = [p, c] :=
      Block.joinedFrom_skip (fun hj => Bool.false_ne_true (hp.1.symm.trans hj.1)) []
    have hfree : Block.freeAt d (L ++ [p] ++ [c]) = Block.freeAt d L ++ [p, c] := by
      rw [List.append_assoc, Block.freeAt_append]
      simp only [List.singleton_append, Block.freeAt_cons, if_neg hne, hcf, ite_self]
      rfl
    have hfree' : Block.freeAt d (L ++ [p]) = Block.freeAt d L ++ [p] := by
      rw [Block.freeAt_append]
      simp only [Block.freeAt_cons, if_neg hne]
      rfl
    have hjoin : Block.joined (Block.freeAt d L ++ [p, c]) =
        Block.joined (Block.freeAt d L) ++ [p] ++ [c] := by
      rw [Block.joined_append_used (by rintro q ⟨⟩; exact hp.1), hpc, List.append_assoc]
      rfl
    have hjoin' : Block.joined (Block.freeAt d L ++ [p]) =
        Block.joined (Block.freeAt d L) ++ [p] :=
      Block.joined_append_used (by rintro q ⟨⟩; exact hp.1)
    intro z hz
    rw [Block.reapLost, hfree, hjoin] at hz
    rw [Block.reapLost, hfree', hjoin']
    rcases List.mem_append.1 hz with hz | hz
    · refine List.mem_append_left _ ?_
      obtain ⟨hzL, hlost⟩ := List.mem_filter.1 hz
      rw [hjoin] at hlost
      have hlost := of_decide_eq_true hlost
      refine List.mem_filter.2 ⟨?_, decide_eq_true fun e he => ?_⟩
      · rw [show [p, c] = [p] ++ [c] from rfl, ← List.append_assoc] at hzL
        refine (List.mem_append.1 hzL).resolve_right fun hzc => ?_
        exact hlost c (List.mem_append_right _ List.mem_cons_self) (by
          rw [List.mem_singleton.1 hzc])
      · rw [hjoin'] at he
        exact hlost e (List.mem_append_left _ he)
    · exact List.mem_append_right _ (ih hD z hz)

/-- The heap is in use, with the payloads at `D` among its live allocations. -/
structure Calling (live : Set (ℕ × ℕ)) (hi : ℕ) (D : List ℕ) (L : List Block) (s : HeapState σ) :
    Prop where
  framed : Framed hi s
  brk : s.brk = hi
  sound : SoundList hi live L
  linked : Linked s.mem L
  used : Stacks D L

namespace Calling

theorem heapInv (h : Calling live hi D L s) : HeapInv ⟨s, live⟩ (L.map Block.seg) :=
  h.sound.heapInv h.framed h.brk h.linked

theorem exists_ticks (h : Calling live hi D L s) :
    ∃ u, reaping B D s = some u ∧ Ticks hi live D L s u ∧
      HeapInv ⟨u, {b ∈ live | b.1 ∉ D}⟩ ((Block.reap D L).map Block.seg) := by
  obtain ⟨u, hu, ht⟩ := JarvisOS.exists_ticks (B := B) h.framed h.brk.ge h.sound h.linked h.used
  exact ⟨u, hu, ht, ht.heapInv h.framed h.brk⟩

theorem growing (h : Calling live hi D L s) : Growing live hi D L s :=
  ⟨h.framed, h.sound, h.linked, h.used⟩

/-- A block that fits and has not been removed stays in the list. -/
theorem stays (B : Backing σ) (h : Calling live hi D L s) (hb : b ∈ L) {size : ℕ}
    (hfit : b.seg.Fits size)
    (hsmall : ∀ z ∈ Block.reapLost D L, z.addr ≤ b.addr → z.size < size) :
    ∃ p ∈ Block.reap D L, p.addr = b.addr := by
  have hp := h.sound.tiles.placed le_rfl h.framed.hi_lt
  obtain ⟨u, -, ht, -⟩ := h.exists_ticks (B := B)
  obtain ⟨x, hxb, hx, -⟩ := ht.exists_lost ⟨b, hb, rfl⟩
  refine ⟨x, hx.resolve_right fun hlost => ?_, hxb⟩
  obtain ⟨d, hd, hdx, hle⟩ := Block.size_le_of_mem_reapLost hlost
  rw [hp.eq_of_addr hd hb (hdx.trans hxb)] at hle
  exact absurd (hfit.2.trans hle) (not_le.2 (hsmall x hlost hxb.le))

/-- The attempts that are left after the interrupt, when the search has ended. -/
theorem returns_sought (h1 : 1 ≤ n) (h2 : n ≤ heapMax) {r : Option ℕ}
    (hr : Sought live n r t) : Returns (heapAct B) (match r with
      | some p => ret p
      | none => extendHeap (align8 n) >>= fun extended =>
        if extended = 0 then ret 0 else attemptLoop (align8 n) attempts) t (Allotted live n) := by
  cases r with
  | some p => exact returns_ret.2 hr.2
  | none =>
    obtain ⟨l, hl⟩ := hr
    exact hl.returns_extend h1 h2 fun ht => ht.returns_attemptLoop h1 h2 attempts

/-- `attemptLoop`, with its parts. -/
theorem attemptLoop_succ (size attempts : ℕ) : attemptLoop size (attempts + 1) =
    perform getHead >>= fun head => searchLoop size listFuel head >>= fun r => match r with
      | some p => ret p
      | none => extendHeap size >>= fun extended =>
        if extended = 0 then ret 0 else attemptLoop size attempts := rfl

/-- The search has stopped at the first block that fits. -/
theorem stopped (B : Backing σ) (h : Calling live hi D L s) (h1 : 1 ≤ n) (h2 : n ≤ heapMax)
    (hL : L = pre ++ b :: post) (hfit : b.seg.Fits (align8 n))
    (hsmall : ∀ z ∈ Block.reapLost D L, z.addr ≤ b.addr → z.size < align8 n) :
    Stopped B live n hi D pre b post s := by
  subst hL
  have hstays := h.stays B (List.mem_append_right _ List.mem_cons_self) hfit hsmall
  exact ⟨h1, h2.trans_lt (by decide), h.framed, h.brk, h.sound, h.linked, h.used, hfit, hstays⟩

end Calling

/-- As far as the first block that fits, no other one does. -/
theorem Tiles.fits_iff {a size : ℕ} (h : Tiles hi a (pre ++ b :: post))
    (hpre : ∀ c ∈ pre, ¬ c.seg.Fits size) (hfit : b.seg.Fits size) :
    ∀ c ∈ pre ++ b :: post, c.addr ≤ b.addr → (c.seg.Fits size ↔ c.addr = b.addr) := by
  have hH := headerSize_eq
  intro c hc hle
  rcases List.mem_append.1 hc with hc | hc
  · have := h.before_block c hc
    exact iff_of_false (hpre c hc) (by omega)
  · rcases List.mem_cons.1 hc with rfl | hc
    · exact iff_of_true hfit rfl
    · have := h.after_block c hc
      unfold Block.stop at this
      omega

/-- Taking the block, as the search does it. -/
theorem Stopped.interrupted_taken (h : Stopped B live n hi D pre b post s) (hD : D ≠ [])
    (hafter : align8 n + headerSize + minSplit ≤ b.size →
      ∀ c ∈ post.head?, c.addr + headerSize ∉ D) :
    Interrupted (heapAct B) (reaping B D) (do let p ← takeBlock b.addr (align8 n); return some p) s
      (Sought {b ∈ live | b.1 ∉ D} n) := by
  have hinv := h.heapInv
  obtain ⟨m, htake, hm, -⟩ := runs_takeBlock_tiled (B := B) hinv.tiled h.fits
  have hallotted := hinv.allotted_carve (n := n) h.fits h.pos h.small (by decide) hm
  rw [← h.addr_eq] at htake hallotted
  refine Interrupted.bind htake.1 ((h.interrupted_takeBlock hD hafter).mono fun r t hr =>
    returns_ret.2 hr) ?_
  obtain ⟨v, hv, hrest⟩ := hallotted.reaping (B := B) (h.sound.live_of_stacks h.used) h.used.nodup
  exact interrupted_ret.2 ⟨v, hv, Nat.succ_ne_zero _, hrest⟩

namespace Calling

/-- **An attempt that finds a block**, with the interrupt anywhere. -/
theorem interrupted_found (h : Calling live hi D L s) (hD : D ≠ []) (h1 : 1 ≤ n) (h2 : n ≤ heapMax)
    (hL : L = pre ++ b :: post) (hpre : ∀ c ∈ pre, ¬ c.seg.Fits (align8 n))
    (hfit : b.seg.Fits (align8 n))
    (hsmall : ∀ z ∈ Block.reapLost D L, z.addr ≤ b.addr → z.size < align8 n)
    (hafter : align8 n + headerSize + minSplit ≤ b.size →
      ∀ c ∈ post.head?, c.addr + headerSize ∉ D) :
    Interrupted (heapAct B) (reaping B D) (attemptLoop (align8 n) (attempts + 1)) s
      (Allotted {b ∈ live | b.1 ∉ D} n) := by
  have h2' : n < 2 ^ 31 := h2.trans_lt (by decide)
  obtain ⟨u, hu, ht, hinvu⟩ := h.exists_ticks (B := B)
  have hs := h.stopped B h1 h2 hL hfit hsmall
  have hpre' : ∀ y ∈ pre.map Block.seg, ¬ y.Fits (align8 n) := by
    intro y hy
    obtain ⟨c, hc, rfl⟩ := List.mem_map.1 hy
    exact hpre c hc
  -- the search with the interrupt anywhere
  obtain ⟨c, L', e, hc⟩ := h.sound.exists_first
  have hcb : c.addr ≤ b.addr := hc ▸ hs.room.1
  have hfuel : hi < c.addr + headerSize * listFuel := by
    rw [hc]
    exact h.framed.ceiling.trans_lt (by decide)
  have hpass : Passable hi (align8 n) D L b.addr := ⟨hsmall, Or.inl (hL ▸ hs.stays)⟩
  have hall := ht.interrupted_searchLoop (B := B) hu h.framed h.brk h.linked hpass h1 h2'
    (fun _ => hs.interrupted_taken hD hafter) (hL ▸ hs.sound.tiles.fits_iff hpre hfit)
    (show _ = [] ++ _ from e) hfuel hcb
  rw [attemptLoop_succ]
  refine interrupted_getHead.2 ⟨⟨u, hu, hinvu.returns_attemptLoop h1 h2 (attempts + 1)⟩, ?_⟩
  -- and after it
  have hinv := hs.heapInv
  obtain ⟨p, t, hsearch, htaken⟩ := runs_searchLoop (B := B) hinv.tiled hpre' hfit
  rw [h.framed.head, ← hc] at hsearch ⊢
  refine Interrupted.bind hsearch.1 (hall.mono fun r t => returns_sought h1 h2) ?_
  have hp : Allotted live n p t := by
    rw [htaken.payload, htaken.state]
    exact hinv.allotted_carve hfit h1 h2' (by decide) htaken.list
  obtain ⟨v, hv, hrest⟩ := hp.reaping (B := B) (h.sound.live_of_stacks h.used) h.used.nodup
  exact interrupted_ret.2 ⟨v, hv, hrest⟩

/-- The search when nothing fits. -/
theorem run_searchLoop_none (h : Calling live hi D L s) {size : ℕ}
    (hno : ∀ c ∈ L, ¬ c.seg.Fits size) :
    run (heapAct B) (searchLoop size listFuel heapStart) s = some (none, s) := by
  have htiled := h.heapInv.tiled
  have hrun := (runs_searchLoop_none (B := B) loadsIn_inWindow htiled.length_lt htiled.headers
    (htiled.spans le_rfl htiled.brk_lt) (show ∀ x ∈ L.map Block.seg, ¬ x.Fits size from
      fun x hx => by
        obtain ⟨d, hd, rfl⟩ := List.mem_map.1 hx
        exact hno d hd)).1
  obtain ⟨c, L', rfl, hc⟩ := h.sound.exists_first
  exact hrun

/-- `extend_heap` with the interrupt anywhere, if the last block stays in use when the heap grows:
either it is refused, or the new block is appended. -/
theorem interrupted_extendHeap (h : Calling live hi D L s) (h1 : 1 ≤ n) (h2 : n ≤ heapMax)
    (hsize : align8 n ≤ 2 ^ 31)
    (hlast : ∀ g, run (heapAct B) (growMapping (wantBytes (align8 n))) s = some (1, g) →
      ∀ c ∈ L.getLast?, Block.Kept D c) :
    Interrupted (heapAct B) (reaping B D) (extendHeap (align8 n)) s
        (fun _ t => ∃ l, HeapInv ⟨t, {b ∈ live | b.1 ∉ D}⟩ l) ∧
      ((∃ g, run (heapAct B) (extendHeap (align8 n)) s = some (0, g) ∧
        HeapInv ⟨g, live⟩ (L.map Block.seg)) ∨
      ∃ g pages, run (heapAct B) (extendHeap (align8 n)) s = some (1, g) ∧
        align8 n + headerSize ≤ pages * pageSize ∧ (∀ c ∈ L.getLast?, Block.Kept D c) ∧
        Calling live (hi + pages * pageSize) D (L ++ [freshAt hi pages]) g) := by
  obtain ⟨hpages, hroom, hpay, -⟩ := growthPages_spec hsize
  have hlt := growth_lt_of_ceiling (h.brk.trans_le h.framed.ceiling) h2
  rw [h.brk] at hlt
  set pages := growthPages (align8 n) with hpages_eq
  obtain ⟨r, g, hrun, hr, hg⟩ := h.growing.returns_growMapping (B := B) h.brk hpages hlt
  have hmap := h.growing.interrupted_growMapping (B := B) h.brk hpages hlt
  obtain ⟨u, hu, -, hinvu⟩ := h.exists_ticks (B := B)
  -- the rest of the call after the interrupt
  have hrest : ∀ r t, Grew hi pages r t ∧ Growing {b ∈ live | b.1 ∉ D} hi [] (Block.reap D L) t →
      Returns (heapAct B) (if r = 0 then ret 0 else appendBlock hi) t
        fun _ t => ∃ l, HeapInv ⟨t, {b ∈ live | b.1 ∉ D}⟩ l := by
    rintro r t ⟨⟨rfl, hbrk⟩ | ⟨rfl, hbrk, hceil⟩, ht⟩
    · exact returns_ret.2 ⟨_, ht.heapInv hbrk⟩
    · exact (Appending.mk ht hbrk hroom hceil).returns_appendBlock.mono fun _ _ h => h.2
  rw [extendHeap_eq]
  rcases hr with ⟨rfl, hbrk⟩ | ⟨rfl, hbrk, hceil⟩
  · -- the growth is refused
    constructor
    · refine interrupted_getBrk.2 ⟨⟨u, hu, hinvu.returns_extendHeap h1 h2⟩, ?_⟩
      rw [h.brk]
      refine Interrupted.bind hrun (hmap.mono hrest) ?_
      obtain ⟨v, hv, -, hgv, hbv⟩ := hg.exists_ticks (B := B) hbrk.ge
      exact interrupted_ret.2 ⟨v, hv, _, hgv.heapInv (hbv.trans hbrk)⟩
    · refine Or.inl ⟨g, ?_, hg.heapInv hbrk⟩
      exact run_bind_of_run _ hrun
  · -- the mapping has grown, and the block is appended
    have hkept := hlast g hrun
    obtain ⟨init, z, rfl⟩ := h.sound.exists_last
    have happ : Appending live hi pages D (init ++ [z]) g := ⟨hg, hbrk, hroom, hceil⟩
    have hz : Block.Kept D z := hkept z (by simp)
    constructor
    · refine interrupted_getBrk.2 ⟨⟨u, hu, hinvu.returns_extendHeap h1 h2⟩, ?_⟩
      rw [h.brk]
      refine Interrupted.bind hrun (hmap.mono hrest) ?_
      exact (happ.interrupted_appendBlock hz).mono fun _ _ h => h.2
    · obtain ⟨m, hblock, hm⟩ := happ.exists_appended (B := B) fun w hw => (hkept w hw).1
      refine Or.inr ⟨g.setMem m, pages, ?_, hpay, hkept, happ.framed, hbrk, ?_, hm, ?_⟩
      · have : run (heapAct B) (perform getBrk >>= fun oldBrk =>
            growMapping (wantBytes (align8 n)) >>= fun grown =>
              if grown = 0 then ret 0 else appendBlock oldBrk) s =
            run (heapAct B) (growMapping (wantBytes (align8 n)) >>= fun grown =>
              if grown = 0 then ret 0 else appendBlock s.brk) s := rfl
        rw [this, h.brk, run_bind_of_run _ hrun]
        exact hblock
      · exact h.sound.append_fresh (fun w hw => (hkept w hw).1) hroom
      · refine ⟨fun d hd => ?_, h.used.nodup⟩
        obtain ⟨b, hb, hrest⟩ := h.used.used d hd
        exact ⟨b, List.mem_append_left _ hb, hrest⟩

/-- **The attempts when nothing fits**, with the interrupt anywhere. -/
theorem interrupted_none (h : Calling live hi D L s) (hD : D ≠ []) (h1 : 1 ≤ n) (h2 : n ≤ heapMax)
    (hno : ∀ c ∈ L, ¬ c.seg.Fits (align8 n)) (hsmall : ∀ z ∈ Block.reapLost D L, z.size < align8 n)
    (hlast : ∀ g, run (heapAct B) (growMapping (wantBytes (align8 n))) s =
      some (1, g) → ∀ c ∈ L.getLast?, Block.Kept D c) :
    Interrupted (heapAct B) (reaping B D) (attemptLoop (align8 n) 2) s
      (Allotted {b ∈ live | b.1 ∉ D} n) := by
  have h2' : n < 2 ^ 31 := h2.trans_lt (by decide)
  obtain ⟨-, -, hsize⟩ := payloadSize_align8 h1 h2'
  obtain ⟨u, hu, ht, hinvu⟩ := h.exists_ticks (B := B)
  have hbelow : ∀ c ∈ L, c.addr < hi := fun c hc => by
    have := (h.sound.tiles.bounds hc).2
    unfold Block.stop at this
    rw [headerSize_eq] at this
    omega
  -- the search comes to the end of the list
  have hpass : Passable hi (align8 n) D L hi := ⟨fun z hz _ => hsmall z hz, Or.inr le_rfl⟩
  obtain ⟨c, L', e, hc⟩ := h.sound.exists_first
  have hfuel : hi < c.addr + headerSize * listFuel := by
    rw [hc]
    exact h.framed.ceiling.trans_lt (by decide)
  have hall := ht.interrupted_searchLoop (B := B) hu h.framed h.brk h.linked hpass h1 h2'
    (fun ⟨d, hd, hde⟩ => absurd hde (hbelow d hd).ne)
    (fun d hd _ => iff_of_false (hno d hd) (hbelow d hd).ne)
    (show _ = [] ++ _ from e) hfuel (hbelow c (e ▸ List.mem_cons_self)).le
  have hsearch := h.run_searchLoop_none (B := B) hno
  obtain ⟨hext, hgrown⟩ := h.interrupted_extendHeap (B := B) h1 h2 hsize hlast
  rw [attemptLoop_succ]
  refine interrupted_getHead.2 ⟨⟨u, hu, hinvu.returns_attemptLoop h1 h2 2⟩, ?_⟩
  rw [hc] at hall
  rw [h.framed.head]
  refine Interrupted.bind hsearch (hall.mono fun r t => returns_sought h1 h2) ?_
  -- the heap grows, or the request is refused
  have hafter : ∀ (r : ℕ) (t : HeapState σ), (∃ l, HeapInv ⟨t, {b ∈ live | b.1 ∉ D}⟩ l) →
      Returns (heapAct B) (if r = 0 then ret 0 else attemptLoop (align8 n) 1) t
        (Allotted {b ∈ live | b.1 ∉ D} n) := by
    rintro r t ⟨l, hl⟩
    split_ifs
    · exact returns_ret.2 hl.allotted_zero
    · exact hl.returns_attemptLoop h1 h2 1
  rcases hgrown with ⟨g, hrun, hg⟩ | ⟨g, pages, hrun, hpay, hkept, hg⟩
  · refine Interrupted.bind hrun (hext.mono hafter) ?_
    obtain ⟨v, hv, l', hl'⟩ := hg.reaping (B := B) (h.sound.live_of_stacks h.used) h.used.nodup
    exact interrupted_ret.2 ⟨v, hv, hl'.allotted_zero⟩
  · refine Interrupted.bind hrun (hext.mono hafter) ?_
    refine hg.interrupted_found hD h1 h2 (show _ = L ++ _ :: [] from rfl) hno ⟨rfl, ?_⟩ ?_
      fun _ _ hc =>
      by cases hc
    · change align8 n ≤ pages * pageSize - headerSize
      omega
    · obtain ⟨init, z, rfl⟩ := h.sound.exists_last
      intro w hw _
      exact hsmall w (Block.reapLost_append (hkept z (by simp)) rfl w hw)

/-- **`kmalloc` with the interrupt anywhere.** -/
theorem interrupted_kmalloc (h : Calling live hi D L s) (hD : D ≠ []) (h1 : 1 ≤ n)
    (h2 : n ≤ heapMax) {grows : Prop}
    (hgrows : ∀ g, run (heapAct B) (growMapping (wantBytes (align8 n))) s = some (1, g) → grows)
    (hclear : ClearAlloc (align8 n) D L grows) :
    Interrupted (heapAct B) (reaping B D) (kmalloc n) s (Allotted {b ∈ live | b.1 ∉ D} n) := by
  obtain ⟨u, hu, ht, hinvu⟩ := h.exists_ticks (B := B)
  have hready : u.ready = 1 := hinvu.tiled.ready
  have hattempt : Interrupted (heapAct B) (reaping B D) (attemptLoop (align8 n) 2) s
      (Allotted {b ∈ live | b.1 ∉ D} n) := by
    rcases hclear.cases with ⟨pre, b, post, hL, hpre, hfit, hsmall, hafter⟩ | ⟨hno, hsmall, hlast⟩
    · exact h.interrupted_found hD h1 h2 hL hpre hfit hsmall hafter
    · exact h.interrupted_none hD h1 h2 hno hsmall fun g hg => hlast (hgrows g hg)
  have hn : n ≠ 0 := Nat.one_le_iff_ne_zero.1 h1
  rw [kmalloc, perform_bind]
  refine interrupted_act.2 ⟨⟨u, hu, ?_⟩, ?_⟩
  · rw [returns_act, show (heapAct B getReady u).1 = 1 from hready, if_neg Nat.one_ne_zero,
      if_neg hn]
    exact hinvu.returns_attemptLoop h1 h2 2
  · rw [show (heapAct B getReady s).1 = 1 from h.framed.ready, if_neg Nat.one_ne_zero, if_neg hn]
    exact hattempt

end Calling

end JarvisOS
