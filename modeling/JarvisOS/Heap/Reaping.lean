import JarvisOS.Heap.Blocks

/-!
# Freeing several blocks under a walk

`reaping B D` frees the payloads at `D`, one call of `kfree` after the other. A walk that is under
way at the time may stand at a block that is then joined to the one before it. Its header stays in
memory as it was: from it the walk comes through blocks that have been joined away (`reapLost`) back
to the list (`Trails`).
-/

namespace JarvisOS

open Foundations HeapOp Prog

variable {σ : Type} {B : Backing σ} {hi : ℕ} {s : HeapState σ} {L : List Block}

/-! ## Freeing one block -/

namespace Block

/-- The list after the block with payload at `ptr` has been marked free. -/
def freeAt (ptr : ℕ) (L : List Block) : List Block :=
  L.map fun b => if b.addr + headerSize = ptr then { b with free := true } else b

@[simp] theorem freeAt_cons (ptr : ℕ) (b : Block) (L : List Block) : freeAt ptr (b :: L) =
    (if b.addr + headerSize = ptr then { b with free := true } else b) :: freeAt ptr L := rfl

theorem freeAt_append (ptr : ℕ) (L L' : List Block) :
    freeAt ptr (L ++ L') = freeAt ptr L ++ freeAt ptr L' := List.map_append

theorem freeAt_ne_nil {ptr : ℕ} (h : L ≠ []) : freeAt ptr L ≠ [] := by
  simpa [freeAt] using h

theorem mem_freeAt {ptr : ℕ} {b : Block} (h : b ∈ freeAt ptr L) :
    ∃ c ∈ L, b.addr = c.addr ∧ b.size = c.size ∧ (c.free = true → b.free = true) ∧
      (b.addr + headerSize ≠ ptr → b = c) ∧ (b.addr + headerSize = ptr → b.free = true) := by
  obtain ⟨c, hc, rfl⟩ := List.mem_map.1 h
  refine ⟨c, hc, ?_⟩
  split_ifs with he
  · exact ⟨rfl, rfl, fun _ => rfl, fun h => absurd he h, fun _ => rfl⟩
  · exact ⟨rfl, rfl, id, fun _ => rfl, fun h => absurd h he⟩

/-- Where no block has its payload at `ptr`, nothing is freed. -/
theorem freeAt_of_ne {ptr : ℕ} (h : ∀ b ∈ L, b.addr + headerSize ≠ ptr) : freeAt ptr L = L :=
  (List.map_congr_left fun b hb => if_neg (h b hb)).trans (List.map_id' L)

theorem map_addr_freeAt (ptr : ℕ) (L : List Block) :
    (freeAt ptr L).map addr = L.map addr := by
  unfold freeAt
  rw [List.map_map]
  refine List.map_congr_left fun b _ => ?_
  simp only [Function.comp_apply]
  split_ifs <;> rfl

end Block

theorem Placed.freeAt (h : Placed heapStart hi L) (ptr : ℕ) :
    Placed heapStart hi (Block.freeAt ptr L) := by
  refine ⟨h.pos, h.hi_lt, fun b hb => ?_, fun b hb => ?_, ?_⟩
  · obtain ⟨c, hc, e, -⟩ := Block.mem_freeAt hb
    exact e ▸ h.lower c hc
  · obtain ⟨c, hc, e, e', -⟩ := Block.mem_freeAt hb
    have := h.upper c hc
    unfold Block.stop at this ⊢
    omega
  · refine List.pairwise_map.2 (h.apart.imp fun {b c} hbc => ?_)
    split_ifs <;> exact hbc

/-- Freeing the block between `pre` and `post`. -/
theorem Placed.freeAt_eq {lo : ℕ} {pre post : List Block} {d : Block}
    (h : Placed lo hi (pre ++ d :: post)) :
    Block.freeAt (d.addr + headerSize) (pre ++ d :: post) =
      pre ++ { d with free := true } :: post := by
  have hH := headerSize_eq
  obtain ⟨-, hpost, hcross⟩ := List.pairwise_append.1 h.apart
  rw [Block.freeAt_append, Block.freeAt_cons, if_pos rfl, Block.freeAt_of_ne fun b hb => ?_,
    Block.freeAt_of_ne fun b hb => ?_]
  · have := (List.pairwise_cons.1 hpost).1 b hb
    omega
  · have := hcross b hb d List.mem_cons_self
    omega

/-- The list is short enough for every loop. -/
theorem Placed.length_lt (h : Placed heapStart hi L) (hhi : hi ≤ heapStart + heapMax) :
    L.length < listFuel := by
  have key : ∀ (M : List Block) (lo : ℕ), (∀ b ∈ M, lo ≤ b.addr) → (∀ b ∈ M, b.stop ≤ hi) →
      M.Pairwise (fun b c => b.addr + headerSize ≤ c.addr) →
      M = [] ∨ lo + M.length * headerSize ≤ hi := by
    intro M
    induction M with
    | nil => exact fun _ _ _ _ => Or.inl rfl
    | cons b M ih =>
      intro lo hlo hup hap
      obtain ⟨hb, hap⟩ := List.pairwise_cons.1 hap
      have h1 := hlo b List.mem_cons_self
      have h2 := hup b List.mem_cons_self
      unfold Block.stop at h2
      rcases ih (b.addr + headerSize) hb (fun c hc => hup c (List.mem_cons_of_mem b hc)) hap with
        rfl | hle
      · refine Or.inr ?_
        simp only [List.length_cons, List.length_nil]
        omega
      · refine Or.inr ?_
        rw [List.length_cons, Nat.succ_mul]
        omega
  rcases key L heapStart h.lower h.upper h.apart with rfl | hle
  · decide
  · simp only [headerSize, heapMax, listFuel] at *
    omega

/-- Marking a block free in memory. -/
theorem Linked.freeAt {m : Mem} (h : Linked m L) (hp : Placed heapStart hi L) {d : Block}
    (hd : d ∈ L) :
    Linked (m.write32 (d.addr + 12) 1) (Block.freeAt (d.addr + headerSize) L) := by
  have hH := headerSize_eq
  induction L with
  | nil => exact absurd hd List.not_mem_nil
  | cons b L ih =>
    have hlink : linkOf (Block.freeAt (d.addr + headerSize) L) = linkOf L := by
      cases L with
      | nil => rfl
      | cons c L => simp only [Block.freeAt_cons, linkOf_cons]; split_ifs <;> rfl
    have hap := (List.pairwise_cons.1 hp.apart).1
    rw [Block.freeAt_cons]
    by_cases e : b.addr = d.addr
    · -- the block itself; the rest of the list is as before
      rw [if_pos (by rw [e])]
      constructor
      · rw [hlink, ← e]
        exact h.1.setFree true
      · rw [Block.freeAt_of_ne fun c hc => by have := hap c hc; omega]
        refine h.2.congr fun c hc y h1 _ => ?_
        have := hap c hc
        exact Mem.write32_apply_of_disjoint _ _ (by omega)
    · rw [if_neg (by omega)]
      have hdL : d ∈ L := (List.mem_cons.1 hd).resolve_left fun hdb => e (by rw [hdb])
      have := hap d hdL
      refine ⟨?_, ih h.2 hp.tail hdL⟩
      rw [hlink]
      exact h.1.write_of_disjoint (by omega)

/-- The block with payload at `ptr` has been freed and its list coalesced: memory `m` has become
`m'`. -/
structure Freed (ptr : ℕ) (L : List Block) (m m' : Mem) : Prop where
  linked : Linked m' (Block.joined (Block.freeAt ptr L))
  mark : m'.read32 (ptr - headerSize + 12) = 1
  frame : ∀ y, (y + headerSize < ptr + 12 ∨ ptr ≤ y) →
    (∀ b ∈ Block.joined (Block.freeAt ptr L), y < b.addr + 4 ∨ b.addr + 12 ≤ y) → m' y = m y

/-- **`kfree` of a block in use**, wherever the blocks of the list end. -/
theorem runs_kfree_blocks {d : Block} (hhead : s.head = linkOf L) (hl : Linked s.mem L)
    (hp : Placed heapStart hi L) (hhi : hi ≤ heapStart + heapMax) (hbrk : hi ≤ s.brk)
    (hd : d ∈ L) (hused : d.free = false) (hpos : 0 < d.size) :
    ∃ m, Runs (heapAct B) (InWindow heapStart hi) (kfree (d.addr + headerSize)) s 1 (s.setMem m) ∧
      Freed (d.addr + headerSize) L s.mem m := by
  have hH := headerSize_eq
  have hlow := hp.lower d hd
  have hup := hp.upper d hd
  have hlt := hp.hi_lt
  unfold Block.stop at hup
  have hroom : Room heapStart hi d.addr := ⟨hlow, by omega, hlt⟩
  obtain ⟨-, post, -, hhd⟩ := hl.header hd
  set m := s.mem.write32 (d.addr + 12) 1 with hm
  have hfreed : Linked m (Block.freeAt (d.addr + headerSize) L) := hl.freeAt hp hd
  have hpf := hp.freeAt (d.addr + headerSize)
  obtain ⟨c, L', e⟩ := List.exists_cons_of_ne_nil
    (Block.freeAt_ne_nil (List.ne_nil_of_mem hd) : Block.freeAt (d.addr + headerSize) L ≠ [])
  have hlink : s.head = c.addr := by
    have hmap := Block.map_addr_freeAt (d.addr + headerSize) L
    rw [e, List.map_cons] at hmap
    rw [hhead]
    cases L with
    | nil => exact absurd hd List.not_mem_nil
    | cons b L => exact (List.cons.inj hmap).1.symm
  rw [e] at hfreed hpf
  obtain ⟨m', hco, hlist, hlinks⟩ := runs_coalesce_blocks (B := B) (s := s.setMem m)
    (Nat.lt_of_succ_lt (hpf.length_lt hhi)) hlink hfreed hpf
  rw [← e] at hlist hlinks
  have hsub' : ∀ c ∈ Block.joined (Block.freeAt (d.addr + headerSize) L),
      c.addr + 12 ≤ d.addr + 12 ∨ d.addr + headerSize ≤ c.addr := fun c hc => by
    obtain ⟨c', hc', e', -⟩ := Block.addr_of_mem_joined hc
    obtain ⟨c'', hc'', e'', -⟩ := Block.mem_freeAt hc'
    rcases hp.eq_or_apart hc'' hd with rfl | hlt | hlt <;> omega
  refine ⟨m', ?_, hlist, ?_, fun y hy hz => ?_⟩
  · have hsub : sub32 (d.addr + headerSize) headerSize = d.addr := by
      rw [sub32_of_le (Nat.le_add_left _ _) (by omega), Nat.add_sub_cancel]
    simp only [kfree, hsub]
    rw [if_neg (by omega), if_neg (by omega), runs_getBrk, if_neg (by omega), runs_getMagic hroom,
      hhd.magic, if_neg (fun h => h rfl), runs_getFree hroom hhd,
      if_neg (show ¬ d.seg.free = true by simp [Block.seg, hused]), if_neg (fun h => h rfl),
      runs_setFree hroom]
    exact hco.bind runs_ret
  · rw [Nat.add_sub_cancel]
    refine (Mem.read32_congr fun y h1 h2 => hlinks y fun a ha => ?_).trans
      (Mem.read32_write32_same _ _ _)
    obtain ⟨c, hc, rfl⟩ := List.mem_map.1 ha
    have := hsub' c hc
    omega
  · rw [hlinks y (by simpa using hz)]
    exact Mem.write32_apply_of_disjoint _ _ (by omega)

/-! ## Freeing several blocks -/

/-- What the timer interrupt does to the heap: free the payloads at `D`. -/
def reapCode : List ℕ → HeapM Unit
  | [] => ret ()
  | d :: D => do
    let _ ← kfree d
    reapCode D

/-- The heap after the payloads at `D` have been freed. -/
def reaping (B : Backing σ) (D : List ℕ) (s : HeapState σ) : Option (HeapState σ) :=
  (run (heapAct B) (reapCode D) s).map Prod.snd

namespace Block

/-- The list after the payloads at `D` have been freed. -/
def reap : List ℕ → List Block → List Block
  | [], L => L
  | d :: D, L => reap D (joined (freeAt d L))

/-- The blocks that joining removes from the list, as they are then. -/
def lost (L : List Block) : List Block := L.filter fun b => ∀ c ∈ joined L, c.addr ≠ b.addr

/-- The blocks that freeing the payloads at `D` removes from the list, each as it is when it is
joined to the one before it. -/
def reapLost : List ℕ → List Block → List Block
  | [], _ => []
  | d :: D, L => lost (freeAt d L) ++ reapLost D (joined (freeAt d L))

end Block

/-- The payloads at `D` are blocks in use, no two of them the same. -/
structure Stacks (D : List ℕ) (L : List Block) : Prop where
  used : ∀ d ∈ D, ∃ b ∈ L, b.addr + headerSize = d ∧ b.free = false ∧ 0 < b.size
  nodup : D.Nodup

/-- Joining leaves a block in use alone. -/
theorem Block.mem_joined_of_used {b : Block} (h : b ∈ L) (hb : b.free = false) :
    b ∈ Block.joined L := by
  have key : ∀ (M : List Block) (c : Block), b ∈ c :: M → b ∈ Block.joinedFrom c M := by
    intro M
    induction M with
    | nil => exact fun c h => h
    | cons d M ih =>
      intro c h
      by_cases hj : c.Joins d
      · rw [Block.joinedFrom_join hj]
        have hc : b ≠ c := fun e => by
          rw [e, hj.1] at hb
          cases hb
        have hd : b ≠ d := fun e => by
          rw [e, hj.2.1] at hb
          cases hb
        exact ih _ (List.mem_cons_of_mem _ (List.mem_of_ne_of_mem hd (List.mem_of_ne_of_mem hc h)))
      · rw [Block.joinedFrom_skip hj]
        rcases List.mem_cons.1 h with rfl | h
        · exact List.mem_cons_self
        · exact List.mem_cons_of_mem _ (ih d h)
  cases L with
  | nil => exact h
  | cons c L => exact key L c h

theorem Stacks.tail {d : ℕ} {D : List ℕ} (h : Stacks (d :: D) L) :
    Stacks D (Block.joined (Block.freeAt d L)) := by
  obtain ⟨hnot, hnodup⟩ := List.nodup_cons.1 h.nodup
  refine ⟨fun e he => ?_, hnodup⟩
  obtain ⟨b, hb, hbe, hused, hpos⟩ := h.used e (List.mem_cons_of_mem d he)
  refine ⟨b, Block.mem_joined_of_used ?_ hused, hbe, hused, hpos⟩
  exact List.mem_map.2 ⟨b, hb, if_neg fun hbd => hnot (by rw [← hbd, hbe]; exact he)⟩

/-- Memory `m` has become `m'` by freeing the payloads at `D`. -/
def Reaped : List ℕ → List Block → Mem → Mem → Prop
  | [], _, m, m' => m' = m
  | d :: D, L, m, m' => ∃ m₁, Freed d L m m₁ ∧ Reaped D (Block.joined (Block.freeAt d L)) m₁ m'

theorem linkOf_joined_freeAt (ptr : ℕ) (L : List Block) :
    linkOf (Block.joined (Block.freeAt ptr L)) = linkOf L := by
  cases L with
  | nil => rfl
  | cons b L =>
    rw [Block.freeAt_cons, Block.joined]
    obtain ⟨c, L', e, hc, -⟩ := Block.joinedFrom_eq_cons
      (if b.addr + headerSize = ptr then { b with free := true } else b) (Block.freeAt ptr L)
    rw [e, linkOf_cons, hc, linkOf_cons]
    split_ifs <;> rfl

/-- **Freeing several payloads.** -/
theorem reaping_eq {D : List ℕ} (hhead : s.head = linkOf L) (hl : Linked s.mem L)
    (hp : Placed heapStart hi L) (hhi : hi ≤ heapStart + heapMax) (hbrk : hi ≤ s.brk)
    (hD : Stacks D L) :
    ∃ m, reaping B D s = some (s.setMem m) ∧ Linked m (Block.reap D L) ∧ Reaped D L s.mem m := by
  induction D generalizing s L with
  | nil => exact ⟨s.mem, rfl, hl, rfl⟩
  | cons d D ih =>
    obtain ⟨b, hb, rfl, hused, hpos⟩ := hD.used d List.mem_cons_self
    obtain ⟨m, hrun, hfreed⟩ := runs_kfree_blocks (B := B) hhead hl hp hhi hbrk hb hused hpos
    obtain ⟨m', hrest, hlinked, hreaped⟩ := ih (s := s.setMem m)
      (hhead.trans (linkOf_joined_freeAt _ L).symm) hfreed.linked (hp.freeAt _).joined hbrk hD.tail
    refine ⟨m', ?_, hlinked, m, hfreed, hreaped⟩
    rw [reaping, reapCode, run_bind_of_run _ hrun.1]
    exact hrest

/-- Freeing payloads writes headers only. -/
theorem Reaped.frame {D : List ℕ} {m m' : Mem} (h : Reaped D L m m') (hD : Stacks D L) :
    HeadersOnly (L.map Block.addr) m m' := by
  have hH := headerSize_eq
  induction D generalizing L m with
  | nil =>
    obtain rfl := h
    exact fun _ _ => rfl
  | cons d D ih =>
    obtain ⟨m₁, hfreed, hrest⟩ := h
    obtain ⟨b, hb, rfl, -⟩ := hD.used d List.mem_cons_self
    have hsub : ∀ c ∈ Block.joined (Block.freeAt (b.addr + headerSize) L),
        c.addr ∈ L.map Block.addr := fun c hc => by
      obtain ⟨e, he, hec, -⟩ := Block.addr_of_mem_joined hc
      rw [← hec, ← Block.map_addr_freeAt (b.addr + headerSize)]
      exact List.mem_map_of_mem he
    intro y hy
    rw [ih hrest hD.tail y fun a ha => ?_, hfreed.frame y ?_ fun c hc => ?_]
    · have := hy b.addr (List.mem_map_of_mem hb)
      omega
    · have := hy c.addr (hsub c hc)
      omega
    · obtain ⟨c, hc, rfl⟩ := List.mem_map.1 ha
      exact hy c.addr (hsub c hc)

/-! ## Lists that tile -/

/-- The blocks lie one after the other from `a` to `hi`. -/
def Tiles (hi : ℕ) : ℕ → List Block → Prop
  | a, [] => a = hi
  | a, b :: L => b.addr = a ∧ Tiles hi b.stop L

namespace Tiles

variable {a e : ℕ} {b c : Block} {pre post : List Block}

theorem append_iff : Tiles hi a (pre ++ post) ↔ ∃ e, Tiles e a pre ∧ Tiles hi e post := by
  induction pre generalizing a with
  | nil => exact ⟨fun h => ⟨a, rfl, h⟩, fun ⟨e, h1, h2⟩ => h1 ▸ h2⟩
  | cons b pre ih =>
    rw [List.cons_append, Tiles, ih]
    exact ⟨fun ⟨h, e, h1, h2⟩ => ⟨e, ⟨h, h1⟩, h2⟩, fun ⟨e, ⟨h, h1⟩, h2⟩ => ⟨h, e, h1, h2⟩⟩

theorem linkOf_eq (h : Tiles hi a L) (hne : L ≠ []) : linkOf L = a := by
  cases L with
  | nil => exact absurd rfl hne
  | cons b L => exact h.1

/-- A list ends in one place. -/
theorem unique (h : Tiles hi a L) (h' : Tiles e a L) : hi = e := by
  induction L generalizing a with
  | nil => exact Eq.trans (Eq.symm h) h'
  | cons b L ih => exact ih h.2 h'.2

/-- A list starts in one place. -/
theorem start_unique (h : Tiles hi a L) (h' : Tiles hi e L) : a = e := by
  cases L with
  | nil => exact Eq.trans h (Eq.symm h')
  | cons b L => exact h.1.symm.trans h'.1

/-- The last block of a list that tiles ends where the list does. -/
theorem exists_last (h : Tiles hi a L) (hne : a ≠ hi) : ∃ A g, L = A ++ [g] ∧ g.stop = hi := by
  rcases List.eq_nil_or_concat L with rfl | ⟨A, g, rfl⟩
  · exact absurd h hne
  · rw [List.concat_eq_append] at h ⊢
    obtain ⟨e, -, -, hg⟩ := append_iff.1 h
    exact ⟨A, g, rfl, hg⟩

theorem le (h : Tiles hi a L) : a ≤ hi := by
  induction L generalizing a with
  | nil => exact h.le
  | cons b L ih =>
    have := ih h.2
    have := h.1
    unfold Block.stop at *
    omega

theorem bounds (h : Tiles hi a L) (hb : b ∈ L) : a ≤ b.addr ∧ b.stop ≤ hi := by
  induction L generalizing a with
  | nil => exact absurd hb List.not_mem_nil
  | cons c L ih =>
    rcases List.mem_cons.1 hb with rfl | hb
    · exact ⟨h.1.ge, h.2.le⟩
    · have := ih h.2 hb
      have := h.1
      unfold Block.stop at *
      omega

/-- No block of the heap is at the null pointer. -/
theorem addr_ne_zero (h : Tiles hi heapStart L) (hb : b ∈ L) : b.addr ≠ 0 := by
  have := (h.bounds hb).1
  simp only [heapStart] at this
  omega

/-- The headers of the blocks in front of a block end before it. -/
theorem before_block (h : Tiles hi a (pre ++ b :: post)) :
    ∀ c ∈ pre, c.addr + headerSize ≤ b.addr := by
  obtain ⟨e, hpre, hb, -⟩ := append_iff.1 h
  intro c hc
  have := (hpre.bounds hc).2
  have : c.addr + headerSize ≤ c.stop := Nat.le_add_right _ _
  omega

theorem after_block (h : Tiles hi a (pre ++ b :: post)) : ∀ c ∈ post, b.stop ≤ c.addr := by
  obtain ⟨e, -, -, hpost⟩ := append_iff.1 h
  exact fun c hc => (hpost.bounds hc).1

/-- A block ends before every later one. -/
theorem within (h : Tiles hi a L) (hb : b ∈ L) (hc : c ∈ L) (hlt : b.addr < c.addr) :
    b.stop ≤ c.addr := by
  induction L generalizing a with
  | nil => exact absurd hb List.not_mem_nil
  | cons d L ih =>
    rcases List.mem_cons.1 hb with hbd | hb <;> rcases List.mem_cons.1 hc with hcd | hc
    · rw [hbd, hcd] at hlt
      exact absurd hlt (lt_irrefl _)
    · exact hbd ▸ (h.2.bounds hc).1
    · have := (h.2.bounds hb).1
      rw [hcd] at hlt
      unfold Block.stop at this
      omega
    · exact ih h.2 hb hc

theorem placed (h : Tiles hi a L) (ha : heapStart ≤ a) (hlt : hi < 2 ^ 32) :
    Placed heapStart hi L := by
  refine ⟨by decide, hlt, fun b hb => ha.trans (h.bounds hb).1, fun b hb => (h.bounds hb).2, ?_⟩
  have key : ∀ (M : List Block) (a : ℕ), Tiles hi a M →
      M.Pairwise fun b c => b.addr + headerSize ≤ c.addr := by
    intro M
    induction M with
    | nil => exact fun _ _ => List.Pairwise.nil
    | cons b M ih =>
      refine fun a hM => List.pairwise_cons.2 ⟨fun c hc => ?_, ih _ hM.2⟩
      exact (Nat.le_add_right _ _).trans (hM.2.bounds hc).1
  exact key L a h

/-- Where a block is linked to. -/
theorem link (h : Tiles hi a (pre ++ b :: post)) :
    linkOf post = (if b.stop = hi then 0 else b.stop) ∧
      (b.stop = hi ∨ ∃ c ∈ post, c.addr = b.stop) := by
  obtain ⟨e, -, -, hpost⟩ := append_iff.1 h
  cases post with
  | nil => exact ⟨(if_pos hpost).symm, Or.inl hpost⟩
  | cons c post =>
    have hle := hpost.2.le
    have hc := hpost.1
    have hH := headerSize_eq
    unfold Block.stop at hle
    exact ⟨by rw [if_neg (by omega), linkOf_cons, hc], Or.inr ⟨c, List.mem_cons_self, hc⟩⟩

theorem freeAt (h : Tiles hi a L) (ptr : ℕ) : Tiles hi a (Block.freeAt ptr L) := by
  induction L generalizing a with
  | nil => exact h
  | cons b L ih =>
    rw [Block.freeAt_cons]
    split_ifs
    · exact ⟨h.1, ih h.2⟩
    · exact ⟨h.1, ih h.2⟩

theorem joinedFrom (h : Tiles hi a (b :: L)) : Tiles hi a (Block.joinedFrom b L) := by
  induction L generalizing a b with
  | nil => exact h
  | cons c L ih =>
    by_cases hj : b.Joins c
    · rw [Block.joinedFrom_join hj]
      exact ih ⟨h.1, by rw [hj.stop_join]; exact h.2.2⟩
    · rw [Block.joinedFrom_skip hj]
      exact ⟨h.1, ih h.2⟩

theorem joined (h : Tiles hi a L) : Tiles hi a (Block.joined L) := by
  cases L with
  | nil => exact h
  | cons b L => exact joinedFrom h

theorem reap (h : Tiles hi a L) (D : List ℕ) : Tiles hi a (Block.reap D L) := by
  induction D generalizing L with
  | nil => exact h
  | cons d D ih => exact ih (h.freeAt d).joined

/-- In a coalesced list a block in use follows a free one. -/
theorem used_after (h : Tiles hi a L) (hm : Seg.NoFreeNeighbours (L.map Block.seg)) (hb : b ∈ L)
    (hc : c ∈ L) (hfree : b.free = true) (e : b.stop = c.addr) : c.free = false := by
  have hH := headerSize_eq
  induction L generalizing a with
  | nil => exact absurd hb List.not_mem_nil
  | cons d L ih =>
    have hstop : d.addr + headerSize ≤ d.stop := Nat.le_add_right _ _
    rcases List.mem_cons.1 hb with hbd | hb <;> rcases List.mem_cons.1 hc with hcd | hc
    · rw [hbd, hcd] at e
      omega
    · rw [hbd] at e hfree
      cases L with
      | nil => exact absurd hc List.not_mem_nil
      | cons c' L =>
        rcases List.mem_cons.1 hc with rfl | hc
        · exact Bool.eq_false_of_not_eq_true fun hcf =>
            (List.isChain_cons_cons.1 hm).1 ⟨hfree, hcf⟩
        · have := (h.2.2.bounds hc).1
          have h1 := h.2.1
          have : c'.addr + headerSize ≤ c'.stop := Nat.le_add_right _ _
          omega
    · have := (h.2.bounds hb).1
      have : b.addr + headerSize ≤ b.stop := Nat.le_add_right _ _
      rw [hcd] at e
      omega
    · exact ih h.2 hm.tail hb hc

end Tiles

/-- Freeing adds no header, and what is free stays free. -/
theorem Block.addr_of_mem_reap {D : List ℕ} {b : Block} (h : b ∈ Block.reap D L) :
    ∃ c ∈ L, c.addr = b.addr ∧ (c.free = true → b.free = true) := by
  induction D generalizing L with
  | nil => exact ⟨b, h, rfl, id⟩
  | cons d D ih =>
    obtain ⟨c, hc, hcb, hfree⟩ := ih h
    obtain ⟨q, hq, hqc, hqf⟩ := Block.addr_of_mem_joined hc
    obtain ⟨r, hr, hrq, -, hrf, -⟩ := Block.mem_freeAt hq
    exact ⟨r, hr, hrq.symm.trans (hqc.trans hcb), fun hf => hfree (hqf ▸ hrf hf)⟩

/-- Every block is covered by what it has been joined to. -/
theorem Block.joinedFrom_covers {b c : Block} (hb : b ∈ c :: L) : ∃ g ∈ Block.joinedFrom c L,
    g.addr ≤ b.addr ∧ b.stop ≤ g.stop ∧ (g = b ∨ b.free = true ∧ g.free = true) := by
  induction L generalizing b c with
  | nil =>
    obtain rfl := List.mem_singleton.1 hb
    exact ⟨b, List.mem_singleton.2 rfl, le_rfl, le_rfl, Or.inl rfl⟩
  | cons d L ih =>
    by_cases hj : c.Joins d
    · rw [Block.joinedFrom_join hj]
      -- what the joined block covers is covered in the end
      have hvia : ∀ e : Block, e.free = true → (c.join d).addr ≤ e.addr →
          e.stop ≤ (c.join d).stop → ∃ g ∈ Block.joinedFrom (c.join d) L,
            g.addr ≤ e.addr ∧ e.stop ≤ g.stop ∧ (g = e ∨ e.free = true ∧ g.free = true) := by
        intro e he h1 h2
        obtain ⟨g, hg, h3, h4, h5⟩ := ih (b := c.join d) (c := c.join d) List.mem_cons_self
        refine ⟨g, hg, h3.trans h1, h2.trans h4, Or.inr ⟨he, ?_⟩⟩
        rcases h5 with rfl | h5
        · rfl
        · exact h5.2
      have hstop := hj.stop_join
      have hend := hj.2.2
      have hle : c.stop ≤ d.stop :=
        hend.trans_le ((Nat.le_add_right _ _).trans (Nat.le_add_right _ _))
      rcases List.mem_cons.1 hb with rfl | hb
      · exact hvia b hj.1 le_rfl (hle.trans hstop.ge)
      · rcases List.mem_cons.1 hb with rfl | hb
        · refine hvia b hj.2.1 ?_ hstop.ge
          rw [Block.join_addr, ← hend]
          exact (Nat.le_add_right _ _).trans (Nat.le_add_right _ _)
        · exact ih (List.mem_cons_of_mem _ hb)
    · rw [Block.joinedFrom_skip hj]
      rcases List.mem_cons.1 hb with rfl | hb
      · exact ⟨b, List.mem_cons_self, le_rfl, le_rfl, Or.inl rfl⟩
      · obtain ⟨g, hg, hrest⟩ := ih hb
        exact ⟨g, List.mem_cons_of_mem _ hg, hrest⟩

theorem Block.joined_covers {b : Block} (hb : b ∈ L) : ∃ g ∈ Block.joined L,
    g.addr ≤ b.addr ∧ b.stop ≤ g.stop ∧ (g = b ∨ b.free = true ∧ g.free = true) := by
  cases L with
  | nil => exact absurd hb List.not_mem_nil
  | cons c L => exact Block.joinedFrom_covers hb

/-! ## Trails -/

/-- The block `x`, whose header memory holds, is in the list `L`, or it has been joined to a block
of the list that covers it; it is linked to the block where it ends, which is one of those at
`T`. -/
structure Trail (m : Mem) (hi : ℕ) (T : Set ℕ) (S : Block → Prop) (L : List Block) (x : Block) :
    Prop where
  header : IsHeader m x.addr x.seg (if x.stop = hi then 0 else x.stop)
  next : x.stop = hi ∨ x.stop ∈ T
  within : ∀ p ∈ L, x.addr < p.addr → x.stop ≤ p.addr
  listed : x ∈ L ∨ x.free = true ∧ S x ∧ ∃ g ∈ L, g.free = true ∧ g.addr < x.addr ∧ x.stop ≤ g.stop

/-- From every header at `T` there is a way back to the list `L`. The blocks that are in the list no
more satisfy `S`. -/
def Trails (m : Mem) (hi : ℕ) (T : Set ℕ) (S : Block → Prop) (L : List Block) : Prop :=
  ∀ y ∈ T, ∃ x : Block, x.addr = y ∧ Trail m hi T S L x

/-- Headers at `T` do not overlap. -/
def Spread (T : Set ℕ) : Prop := ∀ y ∈ T, ∀ z ∈ T, y ≠ z → y + headerSize ≤ z ∨ z + headerSize ≤ y

section Trails

variable {m m' : Mem} {T : Set ℕ} {S : Block → Prop} {a : ℕ} {x : Block}

/-- A block that is in the list no more does not share its address with one that is. -/
theorem Trail.addr_ne (h : Trail m hi T S L x) (ht : Tiles hi a L) (hx : x ∉ L) {p : Block}
    (hp : p ∈ L) : p.addr ≠ x.addr := by
  intro e
  obtain ⟨-, -, g, hg, -, hlt, hle⟩ := h.listed.resolve_left hx
  have := ht.within hg hp (by omega)
  have hH := headerSize_eq
  unfold Block.stop at *
  omega

/-- The blocks of a list that tiles are on the trail to begin with. -/
theorem Tiles.trail (ht : Tiles hi a L) (hl : Linked m L) (hT : ∀ b ∈ L, b.addr ∈ T) (hx : x ∈ L) :
    Trail m hi T S L x := by
  obtain ⟨pre, post, rfl, hhead⟩ := hl.header hx
  obtain ⟨hlink, hnext⟩ := ht.link
  rw [hlink] at hhead
  refine ⟨hhead, hnext.imp_right fun ⟨c, hc, e⟩ => ?_, fun p hp => ht.within hx hp, Or.inl hx⟩
  exact e ▸ hT c (List.mem_append_right _ (List.mem_cons_of_mem _ hc))

theorem Tiles.trails (ht : Tiles hi a L) (hl : Linked m L) :
    Trails m hi {y | ∃ b ∈ L, b.addr = y} S L := by
  rintro y ⟨b, hb, rfl⟩
  exact ⟨b, rfl, ht.trail hl (fun c hc => ⟨c, hc, rfl⟩) hb⟩

/-- Freeing a block adds no header. -/
theorem Block.exists_of_mem_joined_freeAt {ptr : ℕ} {p : Block}
    (hp : p ∈ Block.joined (Block.freeAt ptr L)) : ∃ q ∈ L, q.addr = p.addr := by
  obtain ⟨q, hq, hqp, -⟩ := Block.addr_of_mem_joined hp
  obtain ⟨r, hr, hrq, -⟩ := Block.mem_freeAt hq
  exact ⟨r, hr, hrq.symm.trans hqp⟩

/-- What is not in the list after it has been coalesced is covered from in front of it. -/
theorem Block.covered_of_left {b : Block} {y e : ℕ} (hb : b ∈ L) (hfree : b.free = true)
    (hle : b.addr ≤ y) (hend : e ≤ b.stop) (hne : ∀ g ∈ Block.joined L, g.addr ≠ y) :
    ∃ g ∈ Block.joined L, g.free = true ∧ g.addr < y ∧ e ≤ g.stop := by
  obtain ⟨g, hg, h1, h2, h3⟩ := Block.joined_covers hb
  refine ⟨g, hg, ?_, lt_of_le_of_ne (h1.trans hle) (hne g hg), hend.trans h2⟩
  rcases h3 with rfl | h3
  · exact hfree
  · exact h3.2

/-- A header that is not in the list after freeing `d` keeps its words, except that `d` has been
marked. -/
theorem Freed.header_of_left {d : Block} (hf : Freed (d.addr + headerSize) L m m') (hT : Spread T)
    (hsub : ∀ b ∈ L, b.addr ∈ T) (hd : d ∈ L) {y n : ℕ} {x : Seg} (hy : y ∈ T)
    (hne : ∀ c ∈ Block.joined (Block.freeAt (d.addr + headerSize) L), c.addr ≠ y)
    (hx : IsHeader m y x n) :
    IsHeader m' y (if y = d.addr then { x with free := true } else x) n := by
  have hH := headerSize_eq
  have hword : ∀ k, k ≤ 8 ∨ k ≤ 12 ∧ y ≠ d.addr →
      m'.read32 (y + k) = m.read32 (y + k) := by
    intro k hk
    refine Mem.read32_congr fun z h1 h2 => hf.frame z ?_ fun c hc => ?_
    · by_cases e : y = d.addr
      · have := hk.resolve_right fun h => h.2 e
        omega
      · have := hT _ hy _ (hsub d hd) e
        omega
    · obtain ⟨q, hq, e⟩ := Block.exists_of_mem_joined_freeAt hc
      have := hT _ hy _ (e ▸ hsub q hq) (Ne.symm (hne c hc))
      omega
  split_ifs with hyd
  · have hmark := hf.mark
    rw [Nat.add_sub_cancel, ← hyd] at hmark
    exact ⟨(hword 0 (by omega)).trans hx.magic, (hword 4 (by omega)).trans hx.size,
      (hword 8 (by omega)).trans hx.next, hmark⟩
  · exact ⟨(hword 0 (by omega)).trans hx.magic, (hword 4 (by omega)).trans hx.size,
      (hword 8 (by omega)).trans hx.next, (hword 12 (by omega)).trans hx.free⟩

/-- **Freeing a block leaves the trails.** -/
theorem Trails.freed {d : Block} (h : Trails m hi T S L) (hT : Spread T) (ht : Tiles hi a L)
    (hsub : ∀ b ∈ L, b.addr ∈ T) (hd : d ∈ L) (hf : Freed (d.addr + headerSize) L m m')
    (hS : ∀ b ∈ Block.lost (Block.freeAt (d.addr + headerSize) L), S b) :
    Trails m' hi T S (Block.joined (Block.freeAt (d.addr + headerSize) L)) := by
  set L₁ := Block.freeAt (d.addr + headerSize) L with hL₁
  intro y hy
  by_cases hmain : ∃ c ∈ Block.joined L₁, c.addr = y
  · obtain ⟨c, hc, rfl⟩ := hmain
    refine ⟨c, rfl, (ht.freeAt _).joined.trail hf.linked (fun p hp => ?_) hc⟩
    obtain ⟨q, hq, e⟩ := Block.exists_of_mem_joined_freeAt hp
    exact e ▸ hsub q hq
  obtain ⟨x, rfl, hx⟩ := h y hy
  have hne : ∀ c ∈ Block.joined L₁, c.addr ≠ x.addr := fun c hc e => hmain ⟨c, hc, e⟩
  have hheader := hf.header_of_left hT hsub hd hy hne hx.header
  have hwithin : ∀ p ∈ Block.joined L₁, x.addr < p.addr → x.stop ≤ p.addr := fun p hp hlt => by
    obtain ⟨q, hq, e⟩ := Block.exists_of_mem_joined_freeAt hp
    exact e ▸ hx.within q hq (e ▸ hlt)
  by_cases hxL : x ∈ L
  · -- the block leaves the list now: it is free, and its header stays as it is
    by_cases hxd : x.addr = d.addr
    · have hx₁ : ({ x with free := true } : Block) ∈ L₁ :=
        List.mem_map.2 ⟨x, hxL, if_pos (by rw [hxd])⟩
      rw [if_pos hxd] at hheader
      exact ⟨{ x with free := true }, rfl, hheader, hx.next, hwithin, Or.inr ⟨rfl,
        hS _ (List.mem_filter.2 ⟨hx₁, by simpa using hne⟩),
        Block.covered_of_left hx₁ rfl le_rfl le_rfl hne⟩⟩
    · have hx₁ : x ∈ L₁ := List.mem_map.2 ⟨x, hxL, if_neg (by omega)⟩
      have hfree : x.free = true := by
        by_contra hf'
        exact hne x (Block.mem_joined_of_used hx₁ (Bool.eq_false_of_not_eq_true hf')) rfl
      rw [if_neg hxd] at hheader
      exact ⟨x, rfl, hheader, hx.next, hwithin, Or.inr ⟨hfree,
        hS _ (List.mem_filter.2 ⟨hx₁, by simpa using hne⟩),
        Block.covered_of_left hx₁ hfree le_rfl le_rfl hne⟩⟩
  · -- the block has left the list before
    have hxd : x.addr ≠ d.addr := (hx.addr_ne ht hxL hd).symm
    obtain ⟨hfree, hSx, g, hg, hgfree, hlt, hle⟩ := hx.listed.resolve_left hxL
    rw [if_neg hxd] at hheader
    refine ⟨x, rfl, hheader, hx.next, hwithin, Or.inr ⟨hfree, hSx, ?_⟩⟩
    by_cases hgd : g.addr = d.addr
    · have hg₁ : ({ g with free := true } : Block) ∈ L₁ :=
        List.mem_map.2 ⟨g, hg, if_pos (by rw [hgd])⟩
      exact Block.covered_of_left hg₁ rfl hlt.le hle hne
    · have hg₁ : g ∈ L₁ := List.mem_map.2 ⟨g, hg, if_neg (by omega)⟩
      exact Block.covered_of_left hg₁ hgfree hlt.le hle hne

/-- **Freeing several blocks leaves the trails.** -/
theorem Trails.reaped {D : List ℕ} (h : Trails m hi T S L) (hT : Spread T) (ht : Tiles hi a L)
    (hsub : ∀ b ∈ L, b.addr ∈ T) (hD : Stacks D L) (hr : Reaped D L m m')
    (hS : ∀ b ∈ Block.reapLost D L, S b) : Trails m' hi T S (Block.reap D L) := by
  induction D generalizing L m with
  | nil =>
    obtain rfl := hr
    exact h
  | cons d D ih =>
    obtain ⟨m₁, hf, hrest⟩ := hr
    obtain ⟨b, hb, rfl, -⟩ := hD.used d List.mem_cons_self
    refine ih (h.freed hT ht hsub hb hf fun c hc => hS c (List.mem_append_left _ hc))
      (ht.freeAt _).joined (fun c hc => ?_) hD.tail hrest
      fun c hc => hS c (List.mem_append_right _ hc)
    obtain ⟨q, hq, e⟩ := Block.exists_of_mem_joined_freeAt hc
    exact e ▸ hsub q hq

/-- **The way back**: the blocks that are passed from a header at `T` on, up to the list and then
along it. Those that are not in the list are covered by one block of the list. -/
theorem Trails.follow (h : Trails m hi T S L) (ht : Tiles hi a L) (hl : Linked m L)
    (hT : ∀ y ∈ T, y < hi) {y : ℕ} (hy : y ∈ T) : ∃ c pre post, L = pre ++ post ∧
      linkOf (c ++ post) = y ∧ Linked m (c ++ post) ∧
      Tiles hi y (c ++ post) ∧
      ∀ z ∈ c, z.addr ∈ T ∧ z.free = true ∧ S z ∧ z ∉ L ∧ Trail m hi T S L z := by
  have hH := headerSize_eq
  obtain ⟨n, hn⟩ : ∃ n, hi - y ≤ n := ⟨_, le_rfl⟩
  induction n generalizing y with
  | zero => exact absurd (hT y hy) (by omega)
  | succ n ih =>
    obtain ⟨x, rfl, hx⟩ := h y hy
    by_cases hxL : x ∈ L
    · obtain ⟨pre, post, rfl⟩ := List.append_of_mem hxL
      obtain ⟨e, -, hpost⟩ := Tiles.append_iff.1 ht
      exact ⟨[], pre, x :: post, rfl, rfl, hl.of_append, ⟨rfl, hpost.2⟩,
        fun z hz => absurd hz List.not_mem_nil⟩
    · obtain ⟨hfree, hSx, g, hg, hgfree, hlt, hle⟩ := hx.listed.resolve_left hxL
      rcases hx.next with hend | hnext
      · refine ⟨[x], L, [], (List.append_nil L).symm, rfl, ⟨?_, trivial⟩, ⟨rfl, hend⟩,
          fun z hz => ?_⟩
        · have := hx.header
          rwa [if_pos hend] at this
        · obtain rfl := List.mem_singleton.1 hz
          exact ⟨hy, hfree, hSx, hxL, hx⟩
      · have hadv : x.addr + headerSize ≤ x.stop := Nat.le_add_right _ _
        obtain ⟨c, pre, post, hL, hlink, hlinked, htiles, hc⟩ := ih hnext (by omega)
        refine ⟨x :: c, pre, post, hL, rfl, ⟨?_, hlinked⟩, ⟨rfl, htiles⟩, fun z hz => ?_⟩
        · have := hx.header
          rw [if_neg (hT _ hnext).ne, ← hlink] at this
          exact this
        · rcases List.mem_cons.1 hz with rfl | hz
          · exact ⟨hy, hfree, hSx, hxL, hx⟩
          · exact hc z hz

end Trails

end JarvisOS
