import JarvisOS.Heap.Sound

/-!
# Heap code with blocks freed under its hands

A timer interrupt that frees the stacks of dead tasks comes while `kmalloc` or `kfree` is under way.
`Ticks` describes the state in which the code stands and the one the interrupt leaves, and the rules
here say how the code goes on from there.
-/

namespace JarvisOS

open Foundations HeapOp Prog

variable {σ α : Type} {B : Backing σ} {lo hi b n v : ℕ} {x : Seg} {f : ℕ → HeapM α}
  {s t u : HeapState σ} {Q : α → HeapState σ → Prop} {tick : HeapState σ → Option (HeapState σ)}

/-! ## Accesses -/

theorem returns_getBrk : Returns (heapAct B) (perform getBrk >>= f) s Q ↔
    Returns (heapAct B) (f s.brk) s Q := Iff.rfl

theorem returns_getHead : Returns (heapAct B) (perform getHead >>= f) s Q ↔
    Returns (heapAct B) (f s.head) s Q := Iff.rfl

theorem interrupted_getBrk : Interrupted (heapAct B) tick (perform getBrk >>= f) s Q ↔
    (∃ u, tick s = some u ∧ Returns (heapAct B) (perform getBrk >>= f) u Q) ∧
      Interrupted (heapAct B) tick (f s.brk) s Q := interrupted_act

theorem interrupted_getHead : Interrupted (heapAct B) tick (perform getHead >>= f) s Q ↔
    (∃ u, tick s = some u ∧ Returns (heapAct B) (perform getHead >>= f) u Q) ∧
      Interrupted (heapAct B) tick (f s.head) s Q := interrupted_act

theorem returns_getMagic : Returns (heapAct B) (getMagic b >>= f) s Q ↔
    Returns (heapAct B) (f (s.mem.read32 b)) s Q := by
  rw [getMagic, perform_bind, returns_act]
  exact Iff.rfl

theorem returns_getSize (hr : Room lo hi b) (hx : IsHeader s.mem b x n) :
    Returns (heapAct B) (getSize b >>= f) s Q ↔ Returns (heapAct B) (f x.size) s Q := by
  rw [getSize, perform_bind, returns_act, hr.field (by decide)]
  exact hx.size ▸ Iff.rfl

theorem returns_getNext (hr : Room lo hi b) (hx : IsHeader s.mem b x n) :
    Returns (heapAct B) (getNext b >>= f) s Q ↔ Returns (heapAct B) (f n) s Q := by
  rw [getNext, perform_bind, returns_act, hr.field (by decide)]
  exact hx.next ▸ Iff.rfl

theorem returns_getFree (hr : Room lo hi b) (hx : IsHeader s.mem b x n) :
    Returns (heapAct B) (getFree b >>= f) s Q ↔
      Returns (heapAct B) (f (if x.free then 1 else 0)) s Q := by
  rw [getFree, perform_bind, returns_act, hr.field le_rfl]
  exact hx.free ▸ Iff.rfl

theorem returns_setMagic : Returns (heapAct B) (setMagic b v >>= f) s Q ↔
    Returns (heapAct B) (f 0) (s.setMem (s.mem.write32 b v)) Q := by
  rw [setMagic, perform_bind, returns_act]
  exact Iff.rfl

theorem returns_setSize (hr : Room lo hi b) : Returns (heapAct B) (setSize b v >>= f) s Q ↔
    Returns (heapAct B) (f 0) (s.setMem (s.mem.write32 (b + 4) v)) Q := by
  rw [setSize, perform_bind, returns_act, hr.field (by decide)]
  exact Iff.rfl

theorem returns_setNext (hr : Room lo hi b) : Returns (heapAct B) (setNext b v >>= f) s Q ↔
    Returns (heapAct B) (f 0) (s.setMem (s.mem.write32 (b + 8) v)) Q := by
  rw [setNext, perform_bind, returns_act, hr.field (by decide)]
  exact Iff.rfl

theorem returns_setFree (hr : Room lo hi b) : Returns (heapAct B) (setFree b v >>= f) s Q ↔
    Returns (heapAct B) (f 0) (s.setMem (s.mem.write32 (b + 12) v)) Q := by
  rw [setFree, perform_bind, returns_act, hr.field le_rfl]
  exact Iff.rfl

theorem interrupted_getMagic : Interrupted (heapAct B) tick (getMagic b >>= f) s Q ↔
    (∃ u, tick s = some u ∧ Returns (heapAct B) (getMagic b >>= f) u Q) ∧
      Interrupted (heapAct B) tick (f (s.mem.read32 b)) s Q := by
  rw [getMagic, perform_bind, interrupted_act]
  exact Iff.rfl

theorem interrupted_getSize (hr : Room lo hi b) (hx : IsHeader s.mem b x n) :
    Interrupted (heapAct B) tick (getSize b >>= f) s Q ↔
      (∃ u, tick s = some u ∧ Returns (heapAct B) (getSize b >>= f) u Q) ∧
        Interrupted (heapAct B) tick (f x.size) s Q := by
  rw [getSize, perform_bind, interrupted_act, hr.field (by decide)]
  exact and_congr_right fun _ => hx.size ▸ Iff.rfl

theorem interrupted_getNext (hr : Room lo hi b) (hx : IsHeader s.mem b x n) :
    Interrupted (heapAct B) tick (getNext b >>= f) s Q ↔
      (∃ u, tick s = some u ∧ Returns (heapAct B) (getNext b >>= f) u Q) ∧
        Interrupted (heapAct B) tick (f n) s Q := by
  rw [getNext, perform_bind, interrupted_act, hr.field (by decide)]
  exact and_congr_right fun _ => hx.next ▸ Iff.rfl

theorem interrupted_getFree (hr : Room lo hi b) (hx : IsHeader s.mem b x n) :
    Interrupted (heapAct B) tick (getFree b >>= f) s Q ↔
      (∃ u, tick s = some u ∧ Returns (heapAct B) (getFree b >>= f) u Q) ∧
        Interrupted (heapAct B) tick (f (if x.free then 1 else 0)) s Q := by
  rw [getFree, perform_bind, interrupted_act, hr.field le_rfl]
  exact and_congr_right fun _ => hx.free ▸ Iff.rfl

theorem interrupted_setMagic : Interrupted (heapAct B) tick (setMagic b v >>= f) s Q ↔
    (∃ u, tick s = some u ∧ Returns (heapAct B) (setMagic b v >>= f) u Q) ∧
      Interrupted (heapAct B) tick (f 0) (s.setMem (s.mem.write32 b v)) Q := by
  rw [setMagic, perform_bind, interrupted_act]
  exact Iff.rfl

theorem interrupted_setSize (hr : Room lo hi b) :
    Interrupted (heapAct B) tick (setSize b v >>= f) s Q ↔
      (∃ u, tick s = some u ∧ Returns (heapAct B) (setSize b v >>= f) u Q) ∧
        Interrupted (heapAct B) tick (f 0) (s.setMem (s.mem.write32 (b + 4) v)) Q := by
  rw [setSize, perform_bind, interrupted_act, hr.field (by decide)]
  exact Iff.rfl

theorem interrupted_setNext (hr : Room lo hi b) :
    Interrupted (heapAct B) tick (setNext b v >>= f) s Q ↔
      (∃ u, tick s = some u ∧ Returns (heapAct B) (setNext b v >>= f) u Q) ∧
        Interrupted (heapAct B) tick (f 0) (s.setMem (s.mem.write32 (b + 8) v)) Q := by
  rw [setNext, perform_bind, interrupted_act, hr.field (by decide)]
  exact Iff.rfl

theorem interrupted_setFree (hr : Room lo hi b) :
    Interrupted (heapAct B) tick (setFree b v >>= f) s Q ↔
      (∃ u, tick s = some u ∧ Returns (heapAct B) (setFree b v >>= f) u Q) ∧
        Interrupted (heapAct B) tick (f 0) (s.setMem (s.mem.write32 (b + 12) v)) Q := by
  rw [setFree, perform_bind, interrupted_act, hr.field le_rfl]
  exact Iff.rfl

/-! ## Accesses that change nothing -/

section Again

variable {I : HeapState σ → Prop}

theorem returns_getBrk_again {k : ℕ} (hI : ∀ u, I u → u.brk = k)
    (hp : ∀ u, I u → Returns (heapAct B) (perform getBrk >>= f) u Q) :
    ∀ u, I u → Returns (heapAct B) (f k) u Q := fun u hu => by
  have := hp u hu
  rwa [returns_getBrk, hI u hu] at this

theorem returns_getSize_again (hr : Room lo hi b) (hI : ∀ u, I u → IsHeader u.mem b x n)
    (hp : ∀ u, I u → Returns (heapAct B) (getSize b >>= f) u Q) :
    ∀ u, I u → Returns (heapAct B) (f x.size) u Q := fun u hu =>
  (returns_getSize hr (hI u hu)).1 (hp u hu)

theorem returns_getNext_again (hr : Room lo hi b) (hI : ∀ u, I u → IsHeader u.mem b x n)
    (hp : ∀ u, I u → Returns (heapAct B) (getNext b >>= f) u Q) :
    ∀ u, I u → Returns (heapAct B) (f n) u Q := fun u hu =>
  (returns_getNext hr (hI u hu)).1 (hp u hu)

theorem returns_setMagic_again (hp : ∀ u, I u → Returns (heapAct B) (setMagic b v >>= f) u Q) :
    ∀ u, I u ∧ u.mem.read32 b = u32 v → Returns (heapAct B) (f 0) u Q := fun u hu => by
  have := returns_setMagic.1 (hp u hu.1)
  rwa [Mem.write32_self hu.2] at this

theorem returns_setSize_again (hr : Room lo hi b)
    (hp : ∀ u, I u → Returns (heapAct B) (setSize b v >>= f) u Q) :
    ∀ u, I u ∧ u.mem.read32 (b + 4) = u32 v → Returns (heapAct B) (f 0) u Q := fun u hu => by
  have := (returns_setSize hr).1 (hp u hu.1)
  rwa [Mem.write32_self hu.2] at this

theorem returns_setNext_again (hr : Room lo hi b)
    (hp : ∀ u, I u → Returns (heapAct B) (setNext b v >>= f) u Q) :
    ∀ u, I u ∧ u.mem.read32 (b + 8) = u32 v → Returns (heapAct B) (f 0) u Q := fun u hu => by
  have := (returns_setNext hr).1 (hp u hu.1)
  rwa [Mem.write32_self hu.2] at this

theorem returns_setFree_again (hr : Room lo hi b)
    (hp : ∀ u, I u → Returns (heapAct B) (setFree b v >>= f) u Q) :
    ∀ u, I u ∧ u.mem.read32 (b + 12) = u32 v → Returns (heapAct B) (f 0) u Q := fun u hu => by
  have := (returns_setFree hr).1 (hp u hu.1)
  rwa [Mem.write32_self hu.2] at this

/-- A word of a header is written. The interrupt comes before, and leaves `I`, or later: then what
is left of the call returns from every state with `I` and the word. -/
theorem interrupted_setMagic_again (ht : ∃ u, tick s = some u ∧ I u)
    (hp : ∀ u, I u → Returns (heapAct B) (setMagic b v >>= f) u Q)
    (hnext : (∀ u, I u ∧ u.mem.read32 b = u32 v → Returns (heapAct B) (f 0) u Q) →
      Interrupted (heapAct B) tick (f 0) (s.setMem (s.mem.write32 b v)) Q) :
    Interrupted (heapAct B) tick (setMagic b v >>= f) s Q := by
  obtain ⟨u, hu, hI⟩ := ht
  exact interrupted_setMagic.2 ⟨⟨u, hu, hp u hI⟩, hnext (returns_setMagic_again hp)⟩

theorem interrupted_setSize_again (hr : Room lo hi b) (ht : ∃ u, tick s = some u ∧ I u)
    (hp : ∀ u, I u → Returns (heapAct B) (setSize b v >>= f) u Q)
    (hnext : (∀ u, I u ∧ u.mem.read32 (b + 4) = u32 v → Returns (heapAct B) (f 0) u Q) →
      Interrupted (heapAct B) tick (f 0) (s.setMem (s.mem.write32 (b + 4) v)) Q) :
    Interrupted (heapAct B) tick (setSize b v >>= f) s Q := by
  obtain ⟨u, hu, hI⟩ := ht
  exact (interrupted_setSize hr).2 ⟨⟨u, hu, hp u hI⟩, hnext (returns_setSize_again hr hp)⟩

theorem interrupted_setNext_again (hr : Room lo hi b) (ht : ∃ u, tick s = some u ∧ I u)
    (hp : ∀ u, I u → Returns (heapAct B) (setNext b v >>= f) u Q)
    (hnext : (∀ u, I u ∧ u.mem.read32 (b + 8) = u32 v → Returns (heapAct B) (f 0) u Q) →
      Interrupted (heapAct B) tick (f 0) (s.setMem (s.mem.write32 (b + 8) v)) Q) :
    Interrupted (heapAct B) tick (setNext b v >>= f) s Q := by
  obtain ⟨u, hu, hI⟩ := ht
  exact (interrupted_setNext hr).2 ⟨⟨u, hu, hp u hI⟩, hnext (returns_setNext_again hr hp)⟩

theorem interrupted_setFree_again (hr : Room lo hi b) (ht : ∃ u, tick s = some u ∧ I u)
    (hp : ∀ u, I u → Returns (heapAct B) (setFree b v >>= f) u Q)
    (hnext : (∀ u, I u ∧ u.mem.read32 (b + 12) = u32 v → Returns (heapAct B) (f 0) u Q) →
      Interrupted (heapAct B) tick (f 0) (s.setMem (s.mem.write32 (b + 12) v)) Q) :
    Interrupted (heapAct B) tick (setFree b v >>= f) s Q := by
  obtain ⟨u, hu, hI⟩ := ht
  exact (interrupted_setFree hr).2 ⟨⟨u, hu, hp u hI⟩, hnext (returns_setFree_again hr hp)⟩

theorem interrupted_getBrk_again (ht : ∃ u, tick s = some u ∧ I u) (hI : ∀ u, I u → u.brk = s.brk)
    (hp : ∀ u, I u → Returns (heapAct B) (perform getBrk >>= f) u Q)
    (hnext : (∀ u, I u → Returns (heapAct B) (f s.brk) u Q) →
      Interrupted (heapAct B) tick (f s.brk) s Q) :
    Interrupted (heapAct B) tick (perform getBrk >>= f) s Q := by
  obtain ⟨u, hu, hIu⟩ := ht
  exact interrupted_getBrk.2 ⟨⟨u, hu, hp u hIu⟩, hnext (returns_getBrk_again hI hp)⟩

theorem interrupted_getSize_again (hr : Room lo hi b) (hx : IsHeader s.mem b x n)
    (ht : ∃ u, tick s = some u ∧ I u) (hI : ∀ u, I u → IsHeader u.mem b x n)
    (hp : ∀ u, I u → Returns (heapAct B) (getSize b >>= f) u Q)
    (hnext : (∀ u, I u → Returns (heapAct B) (f x.size) u Q) →
      Interrupted (heapAct B) tick (f x.size) s Q) :
    Interrupted (heapAct B) tick (getSize b >>= f) s Q := by
  obtain ⟨u, hu, hIu⟩ := ht
  exact (interrupted_getSize hr hx).2 ⟨⟨u, hu, hp u hIu⟩, hnext (returns_getSize_again hr hI hp)⟩

theorem interrupted_getNext_again (hr : Room lo hi b) (hx : IsHeader s.mem b x n)
    (ht : ∃ u, tick s = some u ∧ I u) (hI : ∀ u, I u → IsHeader u.mem b x n)
    (hp : ∀ u, I u → Returns (heapAct B) (getNext b >>= f) u Q)
    (hnext : (∀ u, I u → Returns (heapAct B) (f n) u Q) →
      Interrupted (heapAct B) tick (f n) s Q) :
    Interrupted (heapAct B) tick (getNext b >>= f) s Q := by
  obtain ⟨u, hu, hIu⟩ := ht
  exact (interrupted_getNext hr hx).2 ⟨⟨u, hu, hp u hIu⟩, hnext (returns_getNext_again hr hI hp)⟩

end Again

/-- The call may write a header at `a`: otherwise with the memory of `s`, the interrupt leaves the
four words alone, and `I` holds. -/
def Shielded (tick : HeapState σ → Option (HeapState σ)) (a : ℕ) (I : HeapState σ → Prop)
    (s : HeapState σ) : Prop :=
  ∀ m : Mem, (∀ y, y < a ∨ a + headerSize ≤ y → m y = s.mem y) →
    ∃ u, tick (s.setMem m) = some u ∧ I u ∧ ∀ k ≤ 12, u.mem.read32 (a + k) = m.read32 (a + k)

/-- The words of the header that have been written are there after the interrupt. -/
theorem Shielded.words {a : ℕ} {I : HeapState σ → Prop} (h : Shielded tick a I s)
    (ws : List (ℕ × ℕ)) (hws : ws.Pairwise fun v w => v.1 + 4 ≤ w.1) (hle : ∀ w ∈ ws, w.1 ≤ 12) :
    ∃ u, tick (s.setMem (s.mem.writeWords a ws)) = some u ∧ I u ∧
      ∀ w ∈ ws, u.mem.read32 (a + w.1) = u32 w.2 := by
  have hH := headerSize_eq
  obtain ⟨u, hu, hI, hk⟩ := h (s.mem.writeWords a ws) fun y hy =>
    Mem.writeWords_apply_of_disjoint _ fun w hw => by
      have := hle w hw
      omega
  exact ⟨u, hu, hI, fun w hw => (hk w.1 (hle w hw)).trans (Mem.read32_writeWords _ hws hw)⟩

/-! ## The interrupt -/

variable {live : Set (ℕ × ℕ)} {D : List ℕ} {L : List Block} {y fuel : ℕ}

/-- The payloads at `D` have been freed under a call: state `s`, in which memory holds the sound
list `L`, has become `u`. -/
structure Ticks (hi : ℕ) (live : Set (ℕ × ℕ)) (D : List ℕ) (L : List Block) (s u : HeapState σ) :
    Prop where
  before : SoundList hi live L
  hi_lt : hi < 2 ^ 32
  state : u = s.setMem u.mem
  linked : Linked u.mem (Block.reap D L)
  sound : SoundList hi {b ∈ live | b.1 ∉ D} (Block.reap D L)
  frame : HeadersOnly (L.map Block.addr) s.mem u.mem
  trails : ∀ S, (∀ b ∈ Block.reapLost D L, S b) →
    Trails u.mem hi {y | ∃ b ∈ L, b.addr = y} S (Block.reap D L)

theorem Placed.spread (h : Placed lo hi L) : Spread {y | ∃ b ∈ L, b.addr = y} := by
  rintro _ ⟨b, hb, rfl⟩ _ ⟨c, hc, rfl⟩ hne
  rcases h.eq_or_apart hb hc with rfl | hap
  · exact absurd rfl hne
  · exact hap

/-- **The interrupt returns**, wherever the break is. -/
theorem exists_ticks (hf : Framed hi s) (hbrk : hi ≤ s.brk) (hs : SoundList hi live L)
    (hl : Linked s.mem L) (hD : Stacks D L) :
    ∃ u, reaping B D s = some u ∧ Ticks hi live D L s u := by
  have hp := hs.tiles.placed le_rfl hf.hi_lt
  obtain ⟨m, hrun, hlinked, hreaped⟩ := reaping_eq (B := B) (hf.head.trans hs.linkOf_eq.symm) hl hp
    hf.ceiling hbrk hD
  exact ⟨_, hrun, hs, hf.hi_lt, rfl, hlinked, hs.reap hf.hi_lt hD, hreaped.frame hD, fun S hS =>
    (hs.tiles.trails hl).reaped hp.spread hs.tiles (fun b hb => ⟨b, hb, rfl⟩) hD hreaped hS⟩

/-- A coalesced list stays as it is. -/
theorem Block.joined_of_merged (h : Seg.NoFreeNeighbours (L.map Block.seg)) :
    Block.joined L = L := by
  have key : ∀ (M : List Block) (b : Block), Seg.NoFreeNeighbours ((b :: M).map Block.seg) →
      Block.joinedFrom b M = b :: M := by
    intro M
    induction M with
    | nil => exact fun _ _ => rfl
    | cons c M ih =>
      intro b hb
      obtain ⟨hbc, hM⟩ := List.isChain_cons_cons.1 hb
      rw [Block.joinedFrom_skip fun hj => hbc ⟨hj.1, hj.2.1⟩, ih c hM]
  cases L with
  | nil => rfl
  | cons b L => exact key L b h

/-- `coalesce` finds nothing to join in a sound list. -/
theorem SoundList.exists_coalesced (h : SoundList hi live L) (hf : Framed hi s)
    (hl : Linked s.mem L) :
    ∃ m, run (heapAct B) coalesce s = some ((), s.setMem m) ∧ Linked m L := by
  obtain ⟨b, L', rfl⟩ := List.exists_cons_of_ne_nil h.ne_nil
  have hp := h.tiles.placed le_rfl hf.hi_lt
  obtain ⟨m, hrun, hm, -⟩ := runs_coalesce_blocks (B := B)
    (Nat.lt_of_succ_lt (hp.length_lt hf.ceiling)) (hf.head.trans h.linkOf_eq.symm) hl hp
  rw [Block.joined_of_merged h.merged] at hm
  exact ⟨m, hrun.1, hm⟩

/-- What follows a list in front of a block in use stays as it is. -/
theorem Block.joined_append {c post : List Block}
    (hpost : Seg.NoFreeNeighbours (post.map Block.seg))
    (hused : c ≠ [] → ∀ p ∈ post.head?, p.free = false) :
    Block.joined (c ++ post) = Block.joined c ++ post := by
  have key : ∀ (c : List Block) (b : Block), (∀ p ∈ post.head?, p.free = false) →
      Block.joinedFrom b (c ++ post) = Block.joinedFrom b c ++ post := by
    intro c
    induction c with
    | nil =>
      intro b hp
      have hself := Block.joined_of_merged hpost
      cases post with
      | nil => rfl
      | cons p post =>
        have hnot : ¬ b.Joins p := fun hj =>
          absurd hj.2.1 (by rw [hp p rfl]; exact Bool.false_ne_true)
        rw [List.nil_append, Block.joinedFrom_skip hnot]
        exact congrArg (b :: ·) hself
    | cons d c ih =>
      intro b hp
      by_cases hj : b.Joins d
      · rw [List.cons_append, Block.joinedFrom_join hj, Block.joinedFrom_join hj, ih _ hp]
      · rw [List.cons_append, Block.joinedFrom_skip hj, Block.joinedFrom_skip hj, ih _ hp]
        rfl
  cases c with
  | nil => exact Block.joined_of_merged hpost
  | cons b c => exact key c b (hused (List.cons_ne_nil b c))

/-- The beginning of a list stays linked when the rest does. -/
theorem Linked.of_suffix {m m' : Mem} {pre post : List Block} (h : Linked m (pre ++ post))
    (hpost : Linked m' post)
    (hpre : ∀ b ∈ pre, ∀ y, b.addr ≤ y → y < b.addr + headerSize → m' y = m y) :
    Linked m' (pre ++ post) := by
  induction pre with
  | nil => exact hpost
  | cons b pre ih =>
    exact ⟨h.1.congr (hpre b List.mem_cons_self),
      ih h.2 fun c hc => hpre c (List.mem_cons_of_mem b hc)⟩

theorem Tiles.length_le {a : ℕ} (h : Tiles hi a L) : a + headerSize * L.length ≤ hi := by
  induction L generalizing a with
  | nil => exact h.le
  | cons b L ih =>
    have := ih h.2
    have := h.1
    unfold Block.stop at *
    rw [List.length_cons, Nat.mul_succ]
    omega

theorem Block.exists_of_mem_reap {b : Block} (h : b ∈ Block.reap D L) :
    ∃ c ∈ L, c.addr = b.addr := by
  obtain ⟨c, hc, e, -⟩ := Block.addr_of_mem_reap h
  exact ⟨c, hc, e⟩

namespace Ticks

theorem placed (h : Ticks hi live D L s u) : Placed heapStart hi L :=
  h.before.tiles.placed le_rfl h.hi_lt

/-- The way back from a header of the list before, with what is needed to walk it. -/
theorem follow (h : Ticks hi live D L s u) {S : Block → Prop} (hS : ∀ b ∈ Block.reapLost D L, S b)
    (hy : ∃ b ∈ L, b.addr = y) : ∃ c pre post, Block.reap D L = pre ++ post ∧
      linkOf (c ++ post) = y ∧ Linked u.mem (c ++ post) ∧ Tiles hi y (c ++ post) ∧
      Placed heapStart hi (c ++ post) ∧ c ++ post ≠ [] ∧
      ∀ z ∈ c, (∃ b ∈ L, b.addr = z.addr) ∧ z.free = true ∧ S z ∧ z ∉ Block.reap D L ∧
        Trail u.mem hi {y | ∃ b ∈ L, b.addr = y} S (Block.reap D L) z := by
  have hT : ∀ y ∈ {y | ∃ b ∈ L, b.addr = y}, y < hi := by
    rintro _ ⟨b, hb, rfl⟩
    have hH := headerSize_eq
    have := h.placed.upper b hb
    unfold Block.stop at this
    omega
  obtain ⟨c, pre, post, hL, hlink, hlinked, htiles, hc⟩ := (h.trails S hS).follow h.sound.tiles
    h.linked hT hy
  refine ⟨c, pre, post, hL, hlink, hlinked, htiles, htiles.placed ?_ h.hi_lt, fun e => ?_, hc⟩
  · obtain ⟨b, hb, rfl⟩ := hy
    exact h.placed.lower b hb
  · rw [e] at htiles
    exact (hT y hy).ne htiles

/-- The blocks that are passed on the way back end in front of a block in use. -/
theorem used_of_follow (h : Ticks hi live D L s u) {S : Block → Prop} {c pre post : List Block}
    (hL : Block.reap D L = pre ++ post) (ht : Tiles hi y (c ++ post))
    (hc : ∀ z ∈ c, z ∉ Block.reap D L ∧
      Trail u.mem hi {y | ∃ b ∈ L, b.addr = y} S (Block.reap D L) z) (hne : c ≠ []) :
    ∀ p ∈ post.head?, p.free = false := by
  intro p hp
  obtain ⟨post, rfl⟩ : ∃ post', post = p :: post' := by
    cases post with
    | nil => cases hp
    | cons q post =>
      obtain rfl := Option.some.inj hp
      exact ⟨post, rfl⟩
  have hpL : p ∈ Block.reap D L := hL ▸ List.mem_append_right _ List.mem_cons_self
  obtain ⟨c, z, rfl⟩ := (List.eq_nil_or_concat c).resolve_left hne
  rw [List.concat_eq_append] at ht hc
  obtain ⟨hzL, htrail⟩ := hc z (List.mem_append_right _ List.mem_cons_self)
  obtain ⟨-, -, g, hg, hfree, hlt, hle⟩ := htrail.listed.resolve_left hzL
  obtain ⟨e, hce, hpost⟩ := Tiles.append_iff.1 ht
  obtain ⟨e', -, hz⟩ := Tiles.append_iff.1 hce
  have hzp : p.addr = z.stop := hpost.1.trans hz.2.symm
  have hstop : z.addr + headerSize ≤ z.stop := Nat.le_add_right _ _
  have := h.sound.tiles.within hg hpL (by omega)
  exact h.sound.tiles.used_after h.sound.merged hg hpL hfree (by omega)

/-- **`coalesce` from any header of the list before** leaves the list as it is. -/
theorem returns_coalesceLoop (h : Ticks hi live D L s u) (hy : ∃ b ∈ L, b.addr = y)
    (hfuel : hi < y + headerSize * fuel) : Returns (heapAct B) (coalesceLoop fuel y) u
      fun _ t => t = s.setMem t.mem ∧ Linked t.mem (Block.reap D L) := by
  have hH := headerSize_eq
  obtain ⟨c, pre, post, hL, hlink, hlinked, htiles, hplaced, hne, hc⟩ :=
    h.follow (S := fun _ => True) (fun _ _ => trivial) hy
  have hcoalesced : Seg.NoFreeNeighbours (post.map Block.seg) := by
    have := h.sound.merged
    rw [hL, List.map_append] at this
    exact (List.isChain_append.1 this).2.1
  have hjoined := Block.joined_append hcoalesced
    (h.used_of_follow hL htiles fun z hz => (hc z hz).2.2.2)
  obtain ⟨d, M, e⟩ := List.exists_cons_of_ne_nil hne
  have hlen := htiles.length_le
  rw [e] at hlink hlinked hlen hplaced
  obtain ⟨m, hrun, hm, hframe⟩ := runs_coalesceLoop_blocks (B := B)
    (show _ < fuel by
      simp only [List.length_cons, headerSize] at hlen hfuel
      omega) hlinked hplaced
  rw [show Block.joinedFrom d M = Block.joined (c ++ post) by rw [e]; rfl, hjoined] at hm hframe
  rw [← hlink]
  refine hrun.returns ⟨by rw [h.state]; rfl, ?_⟩
  rw [hL]
  -- only headers that are not before `post` in the list have been written
  refine Linked.of_suffix (hL ▸ h.linked) hm.of_append fun p hp z h1 h2 => hframe z fun a ha => ?_
  have hpL : p ∈ Block.reap D L := hL ▸ List.mem_append_left _ hp
  have hapart : ∀ q : Block, (∃ b ∈ L, b.addr = q.addr) → q.addr ≠ p.addr →
      z < q.addr + 4 ∨ q.addr + 12 ≤ z := by
    intro q hq hne
    have := h.placed.spread _ hq _ (Block.exists_of_mem_reap hpL) hne
    omega
  obtain ⟨q, hq, rfl⟩ := List.mem_map.1 ha
  rcases List.mem_append.1 hq with hq | hq
  · obtain ⟨r, hr, e, -⟩ := Block.addr_of_mem_joined hq
    rw [← e]
    exact hapart r (hc r hr).1 ((hc r hr).2.2.2.2.addr_ne h.sound.tiles (hc r hr).2.2.2.1 hpL).symm
  · have hqL : q ∈ Block.reap D L := hL ▸ List.mem_append_right _ hq
    refine hapart q (Block.exists_of_mem_reap hqL) fun e => ?_
    have hap := (hL ▸ h.sound.tiles.placed le_rfl h.hi_lt).apart
    have := (List.pairwise_append.1 hap).2.2 p hp q hq
    omega

/-! ### In the middle of an iteration -/

/-- There is room for the headers of the list before. -/
theorem room (h : Ticks hi live D L s u) (hy : ∃ b ∈ L, b.addr = y) : Room heapStart hi y := by
  obtain ⟨b, hb, rfl⟩ := hy
  have hup := h.placed.upper b hb
  have : b.addr + headerSize ≤ b.stop := Nat.le_add_right _ _
  exact ⟨h.placed.lower b hb, by omega, h.hi_lt⟩

/-- The block at a header of the list before, as it is now. -/
theorem exists_trail (h : Ticks hi live D L s u) (hy : ∃ b ∈ L, b.addr = y) :
    ∃ x : Block, x.addr = y ∧
      Trail u.mem hi {y | ∃ b ∈ L, b.addr = y} (fun _ => True) (Block.reap D L) x :=
  h.trails (fun _ => True) (fun _ _ => trivial) y hy

/-- What was free is free. -/
theorem free_trail (h : Ticks hi live D L s u) {b x : Block} (hb : b ∈ L) (hbf : b.free = true)
    (e : x.addr = b.addr) (hx : Trail u.mem hi {y | ∃ b ∈ L, b.addr = y} (fun _ => True)
      (Block.reap D L) x) : x.free = true := by
  rcases hx.listed with hx | hx
  · obtain ⟨c, hc, hcx, hf⟩ := Block.addr_of_mem_reap hx
    exact hf (h.placed.eq_of_addr hb hc (e.symm.trans hcx.symm) ▸ hbf)
  · exact hx.1

/-- The loop goes on where the block is linked to. -/
theorem returns_next (h : Ticks hi live D L s u) (hy : ∃ b ∈ L, b.addr = y)
    (hfuel : hi < y + headerSize * (fuel + 1)) :
    Returns (heapAct B) (getNext y >>= fun next => coalesceLoop fuel next) u
      fun _ t => t = s.setMem t.mem ∧ Linked t.mem (Block.reap D L) := by
  obtain ⟨x, rfl, hx⟩ := h.exists_trail hy
  rw [returns_getNext (h.room hy) hx.header]
  have hrest := Block.fuel_stop hfuel
  split_ifs with hend
  · obtain ⟨fuel, rfl⟩ := exists_fuel hend.le hrest
    rw [coalesceLoop, if_pos rfl]
    exact returns_ret.2 ⟨h.state, h.linked⟩
  · exact h.returns_coalesceLoop (hx.next.resolve_left hend) hrest

/-- The block at `y` and the one where it ends are both free. -/
def Merges (hi : ℕ) (D : List ℕ) (L : List Block) (m : Mem) (y : ℕ) : Prop :=
  ∃ x z : Block, x.addr = y ∧ x.stop = z.addr ∧ x.free = true ∧ z.free = true ∧
    (∃ b ∈ L, b.addr = z.addr) ∧
    Trail m hi {y | ∃ b ∈ L, b.addr = y} (fun _ => True) (Block.reap D L) x ∧
    Trail m hi {y | ∃ b ∈ L, b.addr = y} (fun _ => True) (Block.reap D L) z

/-- **The rest of an iteration**, after `mergeable` has answered. -/
theorem returns_merge (h : Ticks hi live D L s u) (hy : ∃ b ∈ L, b.addr = y)
    (hfuel : hi < y + headerSize * (fuel + 1)) {merge : Bool}
    (hmerge : merge = true → Merges hi D L u.mem y) :
    Returns (heapAct B) (if merge = true then do swallow y; coalesceLoop fuel y
        else do let next ← getNext y; coalesceLoop fuel next) u
      fun _ t => t = s.setMem t.mem ∧ Linked t.mem (Block.reap D L) := by
  split_ifs with hm
  · -- this is how the loop would go from its beginning
    obtain ⟨x, z, rfl, hxz, hxf, hzf, hz, hx, hzt⟩ := hmerge hm
    have hloop := h.returns_coalesceLoop (B := B) hy hfuel
    have hroom := h.room hy
    have hroomz := h.room hz
    have hend : x.stop ≠ hi := by
      have := hroomz.2.1
      rw [headerSize_eq] at this
      omega
    have hhead := hx.header
    rw [if_neg hend, hxz] at hhead
    have hstop : u32 (u32 (x.addr + headerSize) + x.seg.size) = z.addr :=
      (Block.u32_stop (hxz ▸ hroomz.le.trans_lt h.hi_lt)).trans hxz
    rw [coalesceLoop, if_neg hroom.ne_zero, returns_getNext hroom hhead, if_neg hroomz.ne_zero,
      returns_getSize hroom hhead, hstop] at hloop
    have hyes := (runs_mergeable_at (B := B) (e := z.addr) hroom hroomz hhead hzt.header).1
    have := hloop.of_bind_run hyes
    simpa [Block.seg, hxf, hzf] using this
  · exact h.returns_next hy hfuel

/-- `mergeable` after it has read the block's flag. -/
theorem returns_mergeable_free (h : Ticks hi live D L s u) {x : Block} {e : ℕ}
    (hy : ∃ b ∈ L, b.addr = x.addr)
    (hx : Trail u.mem hi {y | ∃ b ∈ L, b.addr = y} (fun _ => True) (Block.reap D L) x)
    (hxf : x.free = true) (he : e ≠ 0) :
    Returns (heapAct B) (do
        let next ← getNext x.addr
        let nextFree ← getFree next
        if nextFree = 0 then return false
        let next ← getNext x.addr
        return decide (e = next)) u
      fun merge t => t = u ∧ (merge = true → Merges hi D L u.mem x.addr) := by
  have hroom := h.room hy
  rw [returns_getNext hroom hx.header]
  by_cases hend : x.stop = hi
  · -- the block has become the last one: the link that is followed is null
    have hhead := hx.header
    rw [if_pos hend] at hhead ⊢
    rw [getFree, perform_bind, returns_act]
    split_ifs
    · exact returns_ret.2 ⟨rfl, fun h => absurd h Bool.false_ne_true⟩
    · refine (returns_getNext hroom hhead).2 (returns_ret.2 ⟨rfl, fun h => ?_⟩)
      exact absurd (of_decide_eq_true h) he
  · have hhead := hx.header
    rw [if_neg hend] at hhead ⊢
    have hz := hx.next.resolve_left hend
    obtain ⟨z, hzx, hzt⟩ := h.exists_trail hz
    rw [returns_getFree (h.room hz) (hzx ▸ hzt.header)]
    by_cases hzf : z.free = true
    · rw [if_neg (show ¬ (if z.seg.free = true then 1 else 0) = 0 by simp [Block.seg, hzf])]
      exact (returns_getNext hroom hhead).2 (returns_ret.2 ⟨rfl, fun _ =>
        ⟨x, z, rfl, hzx.symm, hxf, hzf, hzx ▸ hz, hx, hzt⟩⟩)
    · rw [if_pos (show (if z.seg.free = true then 1 else 0) = 0 by simp [Block.seg, hzf])]
      exact returns_ret.2 ⟨rfl, fun h => absurd h Bool.false_ne_true⟩

/-- `mergeable` after it has read the block's link to `e`. -/
theorem returns_mergeable_next (h : Ticks hi live D L s u) {x : Block} {e : ℕ}
    (hy : ∃ b ∈ L, b.addr = x.addr) (he : ∃ b ∈ L, b.addr = e)
    (hx : Trail u.mem hi {y | ∃ b ∈ L, b.addr = y} (fun _ => True) (Block.reap D L) x)
    (hxf : x.free = true) :
    Returns (heapAct B) (do
        let nextFree ← getFree e
        if nextFree = 0 then return false
        let next ← getNext x.addr
        return decide (e = next)) u
      fun merge t => t = u ∧ (merge = true → Merges hi D L u.mem x.addr) := by
  obtain ⟨z, rfl, hzt⟩ := h.exists_trail he
  rw [returns_getFree (h.room he) hzt.header]
  by_cases hzf : z.free = true
  · rw [if_neg (show ¬ (if z.seg.free = true then 1 else 0) = 0 by simp [Block.seg, hzf])]
    refine (returns_getNext (h.room hy) hx.header).2 (returns_ret.2 ⟨rfl, fun hm => ?_⟩)
    have hlink := of_decide_eq_true hm
    split_ifs at hlink with hend
    · exact absurd hlink (h.room he).ne_zero
    · exact ⟨x, z, rfl, hlink.symm, hxf, hzf, he, hx, hzt⟩
  · rw [if_pos (show (if z.seg.free = true then 1 else 0) = 0 by simp [Block.seg, hzf])]
    exact returns_ret.2 ⟨rfl, fun h => absurd h Bool.false_ne_true⟩

/-- `mergeable` from its beginning, with whatever end the block had. -/
theorem returns_mergeable (h : Ticks hi live D L s u) {e : ℕ} (hy : ∃ b ∈ L, b.addr = y)
    (he : e ≠ 0) : Returns (heapAct B) (mergeable y e) u
      fun merge t => t = u ∧ (merge = true → Merges hi D L u.mem y) := by
  obtain ⟨x, rfl, hx⟩ := h.exists_trail hy
  rw [mergeable, returns_getFree (h.room hy) hx.header]
  by_cases hxf : x.free = true
  · rw [if_neg (show ¬ (if x.seg.free = true then 1 else 0) = 0 by simp [Block.seg, hxf])]
    exact h.returns_mergeable_free hy hx hxf he
  · rw [if_pos (show (if x.seg.free = true then 1 else 0) = 0 by simp [Block.seg, hxf])]
    exact returns_ret.2 ⟨rfl, fun h => absurd h Bool.false_ne_true⟩

/-- **`mergeable` with the interrupt anywhere**, at two neighbours that are not both free. -/
theorem interrupted_mergeable (h : Ticks hi live D L s u) (htick : tick s = some u)
    (hl : Linked s.mem L) {pre post : List Block} {b c : Block} (hL : L = pre ++ b :: c :: post) :
    Interrupted (heapAct B) tick (mergeable b.addr c.addr) s
      fun merge t => t = u ∧ (merge = true → Merges hi D L u.mem b.addr) := by
  have hbL : b ∈ L := hL ▸ List.mem_append_right _ List.mem_cons_self
  have hcL : c ∈ L := hL ▸ List.mem_append_right _ (List.mem_cons_of_mem _ List.mem_cons_self)
  have hb : ∃ d ∈ L, d.addr = b.addr := ⟨b, hbL, rfl⟩
  have hc : ∃ d ∈ L, d.addr = c.addr := ⟨c, hcL, rfl⟩
  obtain ⟨hhb, hhc, -⟩ := (hL ▸ hl : Linked s.mem (pre ++ b :: c :: post)).of_append
  have hmerged := h.before.merged
  rw [hL, List.map_append] at hmerged
  have hnot := (List.isChain_cons_cons.1 (List.isChain_append.1 hmerged).2.1).1
  have he : c.addr ≠ 0 := (h.room hc).ne_zero
  have hfalse : Interrupted (heapAct B) tick (ret false : HeapM Bool) s
      fun merge t => t = u ∧ (merge = true → Merges hi D L u.mem b.addr) :=
    interrupted_ret.2 ⟨u, htick, rfl, fun h => absurd h Bool.false_ne_true⟩
  have hfirst := h.returns_mergeable (B := B) hb he
  rw [mergeable] at hfirst ⊢
  refine (interrupted_getFree (h.room hb) hhb).2 ⟨⟨u, htick, hfirst⟩, ?_⟩
  by_cases hbf : b.free = true
  · rw [if_neg (show ¬ (if b.seg.free = true then 1 else 0) = 0 by simp [Block.seg, hbf])]
    obtain ⟨x, hxb, hx⟩ := h.exists_trail hb
    have hxf := h.free_trail hbL hbf hxb hx
    refine (interrupted_getNext (h.room hb) hhb).2 ⟨⟨u, htick, ?_⟩, ?_⟩
    · rw [← hxb]
      exact h.returns_mergeable_free (hxb ▸ hb) hx hxf he
    · refine (interrupted_getFree (h.room hc) hhc).2 ⟨⟨u, htick, ?_⟩, ?_⟩
      · rw [← hxb]
        exact h.returns_mergeable_next (hxb ▸ hb) hc hx hxf
      · rw [if_pos (show (if c.seg.free = true then 1 else 0) = 0 from
          if_neg fun hcf => hnot ⟨hbf, hcf⟩)]
        exact hfalse
  · rw [if_pos (show (if b.seg.free = true then 1 else 0) = 0 by simp [Block.seg, hbf])]
    exact hfalse

/-- The interrupt before the size of a block is read: the end is that of the block as it is now. -/
theorem returns_size (h : Ticks hi live D L s u) (hy : ∃ b ∈ L, b.addr = y)
    (hfuel : hi < y + headerSize * (fuel + 1)) :
    Returns (heapAct B) (do
        let size ← getSize y
        let merge ← mergeable y (u32 (u32 (y + headerSize) + size))
        if merge = true then do swallow y; coalesceLoop fuel y
        else do let next ← getNext y; coalesceLoop fuel next) u
      fun _ t => t = s.setMem t.mem ∧ Linked t.mem (Block.reap D L) := by
  obtain ⟨x, rfl, hx⟩ := h.exists_trail hy
  have hroom := h.room hy
  have hle : x.stop ≤ hi := by
    rcases hx.next with e | e
    · exact e.le
    · exact (h.room e).le
  have hne : x.stop ≠ 0 := by
    have := hroom.ne_zero
    unfold Block.stop
    omega
  have hstop : u32 (u32 (x.addr + headerSize) + x.seg.size) = x.stop :=
    Block.u32_stop (hle.trans_lt h.hi_lt)
  rw [returns_getSize hroom hx.header, hstop, returns_bind]
  refine (h.returns_mergeable hy hne).mono ?_
  rintro merge t ⟨rfl, hm⟩
  exact h.returns_merge hy hfuel hm

/-- **`coalesce` with the interrupt anywhere**, on a list that is coalesced already. -/
theorem interrupted_coalesceLoop (h : Ticks hi live D L s u) (htick : tick s = some u)
    (hl : Linked s.mem L) {pre post : List Block} {b : Block} (hL : L = pre ++ b :: post)
    (hfuel : hi < b.addr + headerSize * fuel) :
    Interrupted (heapAct B) tick (coalesceLoop fuel b.addr) s
      fun _ t => t = s.setMem t.mem ∧ Linked t.mem (Block.reap D L) := by
  induction post generalizing pre b fuel with
  | nil =>
    have hb : ∃ d ∈ L, d.addr = b.addr :=
      ⟨b, hL ▸ List.mem_append_right _ List.mem_cons_self, rfl⟩
    have hroom := h.room hb
    obtain ⟨fuel, rfl⟩ := exists_fuel hroom.le hfuel
    have hfirst := h.returns_coalesceLoop (B := B) hb hfuel
    rw [coalesceLoop, if_neg hroom.ne_zero] at hfirst ⊢
    refine (interrupted_getNext hroom (hL ▸ hl : Linked s.mem (pre ++ [b])).of_append.1).2
      ⟨⟨u, htick, hfirst⟩, ?_⟩
    exact interrupted_ret.2 ⟨u, htick, h.state, h.linked⟩
  | cons c post ih =>
    have hbL : b ∈ L := hL ▸ List.mem_append_right _ List.mem_cons_self
    have hcL : c ∈ L := hL ▸ List.mem_append_right _ (List.mem_cons_of_mem _ List.mem_cons_self)
    have hb : ∃ d ∈ L, d.addr = b.addr := ⟨b, hbL, rfl⟩
    have hroom := h.room hb
    have hroomc := h.room ⟨c, hcL, rfl⟩
    obtain ⟨fuel, rfl⟩ := exists_fuel hroom.le hfuel
    obtain ⟨hhb, hhc, -⟩ := (hL ▸ hl : Linked s.mem (pre ++ b :: c :: post)).of_append
    have htiles := h.before.tiles
    rw [hL] at htiles
    obtain ⟨-, -, -, hbc, -⟩ := Tiles.append_iff.1 htiles
    have hfirst := h.returns_coalesceLoop (B := B) hb hfuel
    rw [coalesceLoop, if_neg hroom.ne_zero] at hfirst ⊢
    refine (interrupted_getNext hroom hhb).2 ⟨⟨u, htick, hfirst⟩, ?_⟩
    rw [linkOf_cons, if_neg hroomc.ne_zero]
    refine (interrupted_getSize hroom hhb).2 ⟨⟨u, htick, h.returns_size hb hfuel⟩, ?_⟩
    have hstop : u32 (u32 (b.addr + headerSize) + b.seg.size) = c.addr :=
      (Block.u32_stop ((h.before.tiles.bounds hbL).2.trans_lt h.hi_lt)).trans hbc.symm
    rw [hstop]
    -- the two are not joined, and the loop moves on
    have hmerged := h.before.merged
    rw [hL, List.map_append] at hmerged
    have hnot := (List.isChain_cons_cons.1 (List.isChain_append.1 hmerged).2.1).1
    have hfalse : (b.seg.free && c.seg.free && decide (c.addr = c.addr)) = false := by
      rw [Bool.eq_false_iff]
      intro e
      simp only [Bool.and_eq_true] at e
      exact hnot e.1
    have hrun := (runs_mergeable_at (B := B) (e := c.addr) hroom hroomc hhb hhc).1
    rw [hfalse] at hrun
    refine Interrupted.bind hrun ((h.interrupted_mergeable htick hl hL).mono ?_) ?_
    · rintro merge t ⟨rfl, hm⟩
      exact h.returns_merge hb hfuel hm
    · refine (interrupted_getNext hroom hhb).2 ⟨⟨u, htick, h.returns_next hb hfuel⟩, ?_⟩
      refine ih (show _ = (pre ++ [b]) ++ _ by rw [hL, List.append_assoc]; rfl) ?_
      exact hbc ▸ Block.fuel_stop hfuel

end Ticks

end JarvisOS
