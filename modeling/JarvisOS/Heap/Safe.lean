import JarvisOS.Heap.Sound

/-!
# Safe heaps

What a safe heap is, in terms of its memory alone (`HeapSafe`). The invariant of the heap implies it
(`HeapInv.safe`). In the other direction, a list whose headers are in memory tiles the heap if the
heap is safe, and all live allocations are among its blocks (`HeapSafe.of_linked`).
-/

namespace JarvisOS

open Foundations

variable {σ : Type} {hi : ℕ} {t : HeapState σ} {live : Set (ℕ × ℕ)} {L pre post : List Block}

/-- The blocks visited from `head` on lie one after the other from `heapStart` to `brk`. -/
structure TilesHeap (m : Mem) (head brk : ℕ) (bs : List ℕ) : Prop where
  visits : Visits m head bs
  first : bs.head? = some heapStart
  next_header : bs.IsChain fun b c => b + headerSize + sizeAt m b = c
  last_end : ∀ b ∈ bs.getLast?, b + headerSize + sizeAt m b = brk

/-- The block list tiles the heap, every live allocation is a block in use and every block in use
is a live allocation, and no two live allocations share a byte, nor do a live allocation and a free
block. -/
def HeapSafe (q : HeapSystem σ) : Prop :=
  ∃ bs, TilesHeap q.heap.mem q.heap.head q.heap.brk bs ∧
    (∀ b ∈ q.live, b.1 - headerSize ∈ bs ∧ headerSize ≤ b.1 ∧
      ¬ FreeAt q.heap.mem (b.1 - headerSize) ∧ b.2 ≤ sizeAt q.heap.mem (b.1 - headerSize)) ∧
    (∀ b ∈ bs, ¬ FreeAt q.heap.mem b → ∃ n, (b + headerSize, n) ∈ q.live) ∧
    (∀ b ∈ q.live, ∀ c ∈ q.live, b ≠ c → b.1 + b.2 ≤ c.1 ∨ c.1 + c.2 ≤ b.1) ∧
    ∀ b ∈ q.live, ∀ c ∈ bs, FreeAt q.heap.mem c →
      b.1 + b.2 ≤ c ∨ c + headerSize + sizeAt q.heap.mem c ≤ b.1

/-- Blocks of the list do not overlap. -/
theorem BlockList.apart {m : Mem} {head brk : ℕ} {bs : List ℕ} (h : BlockList m head brk bs)
    {b c : ℕ} (hb : b ∈ bs) (hc : c ∈ bs) (hlt : b < c) : b + headerSize + sizeAt m b ≤ c := by
  have : IsTrans ℕ fun b c => b + headerSize + sizeAt m b ≤ c := ⟨fun a b c h1 h2 => by omega⟩
  have hpair : bs.Pairwise fun b c => b + headerSize + sizeAt m b ≤ c :=
    (h.next_header.imp fun _ _ e => e.le).pairwise
  have hsym : bs.Pairwise fun b c => b + headerSize + sizeAt m b ≤ c ∨
    c + headerSize + sizeAt m c ≤ b :=
    hpair.imp Or.inl
  have : Std.Symm fun b c => b + headerSize + sizeAt m b ≤ c ∨ c + headerSize + sizeAt m c ≤ b :=
    ⟨fun _ _ => Or.symm⟩
  rcases hsym.forall hb hc hlt.ne with hle | hle <;> omega

/-- **The invariant makes the heap safe.** -/
theorem HeapInv.safe {q : HeapSystem σ} {l : List Seg} (h : HeapInv q l) : HeapSafe q := by
  have hlist := h.tiled.blockList
  refine ⟨_, ⟨hlist.visits, hlist.first, hlist.next_header, hlist.last_end⟩,
    fun b hb => h.live_block hb, fun b hb hu => h.used_block hb hu,
    fun b hb c hc => h.accounts.disjoint hb hc, fun b hb c hc hfree => ?_⟩
  obtain ⟨hmem, hle, hu, hsize⟩ := h.live_block hb
  rcases Nat.lt_trichotomy (b.1 - headerSize) c with hlt | e | hlt
  · have := hlist.apart hmem hc hlt
    omega
  · exact absurd (e ▸ hfree) hu
  · have := hlist.apart hc hmem hlt
    omega

/-! ## What safety says of a list in memory -/

/-- A linked list is what is visited. -/
theorem Linked.visits {m : Mem} (h : Linked m L) (hpos : ∀ b ∈ L, b.addr ≠ 0) :
    Visits m (linkOf L) (L.map Block.addr) := by
  induction L with
  | nil => exact rfl
  | cons b L ih =>
    refine ⟨rfl, hpos b List.mem_cons_self, ?_⟩
    rw [h.1.next]
    exact ih h.2 fun c hc => hpos c (List.mem_cons_of_mem b hc)

/-- **In a safe heap the list tiles**, and the live allocations are among its blocks. -/
theorem HeapSafe.of_linked (h : HeapSafe ⟨t, live⟩) (hl : Linked t.mem L)
    (hpos : ∀ b ∈ L, b.addr ≠ 0) (hhead : t.head = linkOf L) :
    Tiles t.brk heapStart L ∧ ∀ b ∈ live, ∃ c ∈ L, c.addr + headerSize = b.1 := by
  obtain ⟨bs, ⟨hvisits, hfirst, hnext, hlast⟩, hlive, -⟩ := h
  have hbs := (hhead ▸ hvisits).unique (hl.visits hpos)
  subst hbs
  constructor
  · have key : ∀ (M : List Block) (a : ℕ), Linked t.mem M → (M.map Block.addr).head? = some a →
        ((M.map Block.addr).IsChain fun b c => b + headerSize + sizeAt t.mem b = c) →
        (∀ b ∈ (M.map Block.addr).getLast?, b + headerSize + sizeAt t.mem b = t.brk) →
        Tiles t.brk a M := by
      intro M
      induction M with
      | nil => exact fun _ _ ha => by cases ha
      | cons b M ih =>
        intro a hM ha hchain hend
        have hsize : sizeAt t.mem b.addr = b.size := hM.1.size
        refine ⟨Option.some.inj ha, ?_⟩
        cases M with
        | nil =>
          have := hend b.addr rfl
          rw [hsize] at this
          exact this
        | cons c M =>
          obtain ⟨hbc, hchain⟩ := List.isChain_cons_cons.1 hchain
          refine ih b.stop hM.2 ?_ hchain hend
          rw [hsize] at hbc
          exact congrArg some hbc.symm
    exact key L heapStart hl hfirst hnext hlast
  · intro b hb
    obtain ⟨hmem, hle, -⟩ := hlive b hb
    obtain ⟨c, hc, e⟩ := List.mem_map.1 hmem
    exact ⟨c, hc, by omega⟩

/-- In a safe heap a block ends where the next one starts. The list is that in memory as far as the
block. -/
theorem HeapSafe.stop_of_linked {m : Mem} {b c : Block} (h : HeapSafe ⟨t, live⟩)
    (hl : Linked m (pre ++ b :: c :: post)) (hpos : ∀ d ∈ pre ++ b :: c :: post, d.addr ≠ 0)
    (hm : ∀ d ∈ pre ++ [b], ∀ y, d.addr ≤ y → y < d.addr + headerSize → t.mem y = m y)
    (hhead : t.head = linkOf (pre ++ b :: c :: post)) : b.stop = c.addr := by
  obtain ⟨bs, ⟨hvisits, -, hnext, -⟩, -⟩ := h
  have key : ∀ (pre : List Block) (bs : List ℕ), Linked m (pre ++ b :: c :: post) →
      (∀ d ∈ pre ++ b :: c :: post, d.addr ≠ 0) →
      (∀ d ∈ pre ++ [b], ∀ y, d.addr ≤ y → y < d.addr + headerSize → t.mem y = m y) →
      Visits t.mem (linkOf (pre ++ b :: c :: post)) bs →
      (bs.IsChain fun b c => b + headerSize + sizeAt t.mem b = c) → b.stop = c.addr := by
    intro pre
    induction pre with
    | nil =>
      intro bs hl hpos hm hv hchain
      have hb := hl.1.congr (hm b List.mem_cons_self)
      obtain _ | ⟨x, _ | ⟨y, bs⟩⟩ := bs
      · exact absurd hv (hpos b List.mem_cons_self)
      · obtain ⟨hx, -, hend⟩ := hv
        refine absurd (hb.next.symm.trans ?_) (hpos c (List.mem_cons_of_mem _ List.mem_cons_self))
        exact (congrArg (fun x => t.mem.read32 (x + 8)) hx).trans hend
      · obtain ⟨hx, -, hy, -⟩ := hv
        replace hx : b.addr = x := hx
        have hbc := (List.isChain_cons_cons.1 hchain).1
        rw [← hx, show sizeAt t.mem b.addr = b.size from hb.size] at hbc
        rw [← hx, hb.next] at hy
        exact hbc.trans hy.symm
    | cons d pre ih =>
      intro bs hl hpos hm hv hchain
      have hd := hl.1.congr (hm d List.mem_cons_self)
      obtain _ | ⟨x, bs⟩ := bs
      · exact absurd hv (hpos d List.mem_cons_self)
      · obtain ⟨hx, -, hv⟩ := hv
        rw [← hx, List.cons_append, linkOf_cons, hd.next] at hv
        exact ih bs hl.2 (fun e he => hpos e (List.mem_cons_of_mem d he))
          (fun e he => hm e (List.mem_cons_of_mem d he)) hv hchain.tail
  exact key pre bs hl hpos hm (hhead ▸ hvisits) hnext

end JarvisOS
