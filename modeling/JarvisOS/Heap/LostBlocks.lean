import JarvisOS.Heap.TakeInterrupted

/-!
# What becomes of a list when blocks are freed

Freeing several payloads leaves a list without free neighbours (`Tiles.reap_merged`), so that a free
block behind one that is free then has left it (`Tiles.lost_of_freed`). Where the list does not
tile, because a block ends past the start of the next one, nothing is joined across the gap
(`Tiles.reap_append`), and a block in front of it that leaves the list keeps its header, with the
link across (`Reaped.header`).
-/

namespace JarvisOS

open Foundations

variable {lo hi a e : ℕ} {D : List ℕ} {L pre post A C : List Block} {b c p w : Block} {m m' : Mem}

namespace Block

/-- Joining makes no block in use. -/
theorem mem_of_mem_joined (h : b ∈ joined L) (hb : b.free = false) : b ∈ L := by
  have key : ∀ (M : List Block) (c : Block), b ∈ joinedFrom c M → b ∈ c :: M := by
    intro M
    induction M with
    | nil => exact fun c h => h
    | cons d M ih =>
      intro c h
      by_cases hj : c.Joins d
      · rw [joinedFrom_join hj] at h
        rcases List.mem_cons.1 (ih _ h) with rfl | h
        · cases hb
        · exact List.mem_cons_of_mem _ (List.mem_cons_of_mem _ h)
      · rw [joinedFrom_skip hj] at h
        rcases List.mem_cons.1 h with rfl | h
        · exact List.mem_cons_self
        · exact List.mem_cons_of_mem _ (ih d h)
  cases L with
  | nil => exact h
  | cons c L => exact key L c h

/-- A block in use has been so before, and it has not been freed. -/
theorem used_of_mem_reap (h : b ∈ reap D L) (hb : b.free = false) :
    b ∈ L ∧ b.addr + headerSize ∉ D := by
  induction D generalizing L with
  | nil => exact ⟨h, List.not_mem_nil⟩
  | cons d D ih =>
    obtain ⟨hmem, hD⟩ := ih h
    obtain ⟨c, hc, hbc, -, -, hsame, hfreed⟩ := mem_freeAt (mem_of_mem_joined hmem hb)
    have hne : b.addr + headerSize ≠ d := fun e => by
      rw [hfreed e] at hb
      cases hb
    exact ⟨hsame hne ▸ hc, List.not_mem_cons_of_ne_of_not_mem hne hD⟩

theorem head?_freeAt {ptr : ℕ} (hc : c ∈ (freeAt ptr L).head?) :
    ∃ q ∈ L.head?, q.addr = c.addr := by
  cases L with
  | nil => cases hc
  | cons q L =>
    rw [freeAt_cons] at hc
    obtain rfl := Option.some.inj hc
    refine ⟨q, rfl, ?_⟩
    split_ifs <;> rfl

/-- The last block leaves the list, or it is as it was. -/
theorem joined_concat (hp : Placed lo hi (A ++ [p]))
    (h : ∃ q ∈ joined (A ++ [p]), q.addr = p.addr) : ∃ A', joined (A ++ [p]) = A' ++ [p] := by
  have hH := headerSize_eq
  have key : ∀ (A : List Block) (b : Block), Placed lo hi (b :: (A ++ [p])) →
      (∃ q ∈ joinedFrom b (A ++ [p]), q.addr = p.addr) →
      ∃ A', joinedFrom b (A ++ [p]) = A' ++ [p] := by
    intro A
    induction A with
    | nil =>
      intro b hp h
      have hbp := (List.pairwise_cons.1 hp.apart).1 p List.mem_cons_self
      by_cases hj : b.Joins p
      · obtain ⟨q, hq, e⟩ := h
        rw [List.nil_append, joinedFrom_join hj] at hq
        rw [List.mem_singleton.1 hq, join_addr] at e
        omega
      · exact ⟨[b], by rw [List.nil_append, joinedFrom_skip hj]; rfl⟩
    | cons d A ih =>
      intro b hp h
      have hbp := (List.pairwise_cons.1 hp.apart).1 p (by simp)
      by_cases hj : b.Joins d
      · rw [List.cons_append, joinedFrom_join hj] at h ⊢
        exact ih _ (hp.join hj.2.2) h
      · rw [List.cons_append, joinedFrom_skip hj] at h ⊢
        obtain ⟨q, hq, e⟩ := h
        rcases List.mem_cons.1 hq with rfl | hq
        · omega
        · obtain ⟨A', hA⟩ := ih d hp.tail ⟨q, hq, e⟩
          exact ⟨b :: A', by rw [hA]; rfl⟩
  cases A with
  | nil => exact ⟨[], rfl⟩
  | cons b A => exact key A b hp h

/-- A block that leaves the list shares no byte of its header with those that remain. -/
theorem apart_of_left (hp : Placed lo hi (A ++ [p] ++ C))
    (hnot : ¬ ∃ q ∈ joined (A ++ [p]), q.addr = p.addr) :
    ∀ q ∈ joined (A ++ [p]) ++ joined C,
      q.addr + headerSize ≤ p.addr ∨ p.addr + headerSize ≤ q.addr := by
  intro q hq
  rcases List.mem_append.1 hq with hq | hq
  · have hqp : q.addr ≠ p.addr := fun e => hnot ⟨q, hq, e⟩
    obtain ⟨x, hx, hxq, -⟩ := addr_of_mem_joined hq
    rcases hp.eq_or_apart (List.mem_append_left C hx)
      (show p ∈ A ++ [p] ++ C by simp) with rfl | hle | hle
    · exact absurd hxq.symm hqp
    all_goals omega
  · obtain ⟨x, hx, hxq, -⟩ := addr_of_mem_joined hq
    have := (List.pairwise_append.1 hp.apart).2.2 p (by simp) x hx
    omega

end Block

namespace Tiles

/-- Freeing leaves no free neighbours. -/
theorem reap_merged (h : Tiles hi a L) (hD : D ≠ []) :
    Seg.NoFreeNeighbours ((Block.reap D L).map Block.seg) := by
  induction D generalizing L with
  | nil => exact absurd rfl hD
  | cons d D ih =>
    have ht := h.freeAt d
    cases D with
    | nil =>
      rw [Block.reap, Block.reap, ht.map_seg_joined]
      exact Seg.noFreeNeighbours_merge _ _
    | cons d' D => exact ih ht.joined (List.cons_ne_nil _ _)

/-- The block in front of another one. -/
theorem exists_before (h : Tiles hi a L) (hb : b ∈ L) (hne : b.addr ≠ a) :
    ∃ c ∈ L, c.stop = b.addr := by
  induction L generalizing a with
  | nil => exact absurd hb List.not_mem_nil
  | cons c L ih =>
    rcases List.mem_cons.1 hb with rfl | hb
    · exact absurd h.1 hne
    · by_cases e : b.addr = c.stop
      · exact ⟨c, List.mem_cons_self, e.symm⟩
      · obtain ⟨d, hd, hstop⟩ := ih h.2 hb e
        exact ⟨d, List.mem_cons_of_mem c hd, hstop⟩

/-- Two blocks are the same, or one ends before the other. -/
theorem eq_or_within (h : Tiles hi a L) (hb : b ∈ L) (hc : c ∈ L) :
    b = c ∨ b.stop ≤ c.addr ∨ c.stop ≤ b.addr := by
  induction L generalizing a with
  | nil => exact absurd hb List.not_mem_nil
  | cons d L ih =>
    rcases List.mem_cons.1 hb with hbd | hb <;> rcases List.mem_cons.1 hc with hcd | hc
    · exact Or.inl (hbd.trans hcd.symm)
    · exact Or.inr (Or.inl (hbd ▸ (h.2.bounds hc).1))
    · exact Or.inr (Or.inr (hcd ▸ (h.2.bounds hb).1))
    · exact ih h.2 hb hc

theorem eq_of_addr (h : Tiles hi a L) (hb : b ∈ L) (hc : c ∈ L) (e : b.addr = c.addr) : b = c := by
  have hH := headerSize_eq
  rcases h.eq_or_within hb hc with rfl | hle | hle
  · rfl
  all_goals
    unfold Block.stop at hle
    omega

theorem eq_of_stop (h : Tiles hi a L) (hb : b ∈ L) (hc : c ∈ L) (e : b.stop = c.stop) : b = c := by
  have hH := headerSize_eq
  rcases h.eq_or_within hb hc with rfl | hle | hle
  · rfl
  all_goals
    unfold Block.stop at *
    omega

/-- **A free block leaves the list** when the one in front of it is free then. -/
theorem lost_of_freed (h : Tiles hi a (pre ++ w :: p :: post)) (hD : D ≠ [])
    (hw : w.free = true ∨ w.addr + headerSize ∈ D) (hp : p.free = true) :
    ∀ b ∈ Block.reap D (pre ++ w :: p :: post), b.addr ≠ p.addr := by
  have hH := headerSize_eq
  intro b hb e
  have hmem : w ∈ pre ++ w :: p :: post := List.mem_append_right _ List.mem_cons_self
  have hpmem : p ∈ pre ++ w :: p :: post :=
    List.mem_append_right _ (List.mem_cons_of_mem _ List.mem_cons_self)
  have hwp : p.addr = w.stop := by
    obtain ⟨f, -, -, hw⟩ := append_iff.1 h
    exact hw.1
  have hfree : b.free = true := by
    obtain ⟨q, hq, hqb, hqf⟩ := Block.addr_of_mem_reap hb
    exact hqf (h.eq_of_addr hq hpmem (hqb.trans e) ▸ hp)
  have hstart : b.addr ≠ a := by
    have := (h.bounds hmem).1
    have : w.addr + headerSize ≤ w.stop := Nat.le_add_right _ _
    omega
  have ht := h.reap D
  obtain ⟨q, hq, hstop⟩ := ht.exists_before hb hstart
  have hqf : q.free = false := Bool.eq_false_of_not_eq_true fun hqf => by
    rw [ht.used_after (h.reap_merged hD) hq hb hqf hstop] at hfree
    cases hfree
  obtain ⟨hqL, hqD⟩ := Block.used_of_mem_reap hq hqf
  have : q = w := h.eq_of_stop hqL hmem (hstop.trans (e.trans hwp))
  rw [this] at hqf hqD
  rcases hw with hw | hw
  · rw [hw] at hqf
    cases hqf
  · exact hqD hw

/-- Nothing is joined to what does not start where the list ends. -/
theorem joined_append (h : Tiles e a pre) (hpost : ∀ c ∈ post.head?, c.addr ≠ e) :
    Block.joined (pre ++ post) = Block.joined pre ++ Block.joined post := by
  have key : ∀ (pre : List Block) (b : Block) (a : ℕ), Tiles e a (b :: pre) →
      Block.joinedFrom b (pre ++ post) = Block.joinedFrom b pre ++ Block.joined post := by
    intro pre
    induction pre with
    | nil =>
      intro b a hb
      cases post with
      | nil => rfl
      | cons c post =>
        have hnot : ¬ b.Joins c := fun hj => hpost c rfl (hj.2.2.symm.trans hb.2)
        rw [List.nil_append, Block.joinedFrom_skip hnot]
        rfl
    | cons d pre ih =>
      intro b a hb
      by_cases hj : b.Joins d
      · rw [List.cons_append, Block.joinedFrom_join hj, Block.joinedFrom_join hj]
        exact ih (b.join d) a ⟨hb.1, by rw [hj.stop_join]; exact hb.2.2⟩
      · rw [List.cons_append, Block.joinedFrom_skip hj, Block.joinedFrom_skip hj, ih d _ hb.2]
        rfl
  cases pre with
  | nil => rfl
  | cons b pre => exact key pre b a h

/-- **Freeing does not cross a gap.** -/
theorem reap_append (h : Tiles e a pre) (hpost : ∀ c ∈ post.head?, c.addr ≠ e) :
    Block.reap D (pre ++ post) = Block.reap D pre ++ Block.reap D post := by
  induction D generalizing pre post with
  | nil => rfl
  | cons d D ih =>
    have hhead : ∀ c ∈ (Block.freeAt d post).head?, c.addr ≠ e := by
      intro c hc
      obtain ⟨q, hq, hqc⟩ := Block.head?_freeAt hc
      exact hqc ▸ hpost q hq
    rw [Block.reap, Block.freeAt_append, (h.freeAt d).joined_append hhead,
      ih (h.freeAt d).joined fun c hc => ?_]
    · rfl
    · obtain ⟨q, hq, hqc, -⟩ := Block.head?_joined_freeAt hc
      exact hqc ▸ hpost q hq

end Tiles

/-- **A block in front of a gap keeps its header**, with its link across the gap, whether it stays
in the list or not. -/
theorem Reaped.header (hr : Reaped D (A ++ p :: C) m m') (hl : Linked m (A ++ p :: C))
    (hp : Placed heapStart hi (A ++ p :: C)) (ht : Tiles e a (A ++ [p]))
    (hC : ∀ c ∈ C.head?, c.addr ≠ e) (hD : Stacks D (A ++ p :: C)) (hfree : p.free = true) :
    IsHeader m' p.addr p.seg (linkOf C) := by
  have hH := headerSize_eq
  induction D generalizing A C m with
  | nil =>
    obtain rfl := hr
    exact hl.of_append.1
  | cons d D ih =>
    obtain ⟨m₁, hf, hrest⟩ := hr
    obtain ⟨q, hq, rfl, hused, -⟩ := hD.used d List.mem_cons_self
    have hmem : p ∈ A ++ p :: C := List.mem_append_right _ List.mem_cons_self
    have hqp : q.addr ≠ p.addr := fun hqp => by
      rw [hp.eq_of_addr hq hmem hqp, hfree] at hused
      cases hused
    have hne : p.addr + headerSize ≠ q.addr + headerSize := by omega
    -- the list after the step, in front of the gap and behind it
    have hA : Block.freeAt (q.addr + headerSize) (A ++ [p]) =
        Block.freeAt (q.addr + headerSize) A ++ [p] := by
      rw [Block.freeAt_append, Block.freeAt_cons, if_neg hne]
      rfl
    have htA := ht.freeAt (q.addr + headerSize)
    rw [hA] at htA
    set A₁ := Block.freeAt (q.addr + headerSize) A
    set C₁ := Block.freeAt (q.addr + headerSize) C
    have hhead : ∀ c ∈ C₁.head?, c.addr ≠ e := by
      intro c hc
      obtain ⟨r, hr, hrc⟩ := Block.head?_freeAt hc
      exact hrc ▸ hC r hr
    have hlist : Block.freeAt (q.addr + headerSize) (A ++ p :: C) = A₁ ++ [p] ++ C₁ := by
      rw [← List.singleton_append, ← List.append_assoc, Block.freeAt_append, hA]
    have hjoin := htA.joined_append hhead
    have hlinked := hf.linked
    have hpl := (hp.freeAt (q.addr + headerSize)).joined
    have hfreed := hp.freeAt (q.addr + headerSize)
    have hDtail := hD.tail
    rw [hlist] at hfreed
    rw [hlist, hjoin] at hlinked hpl hrest hDtail
    by_cases hkept : ∃ r ∈ Block.joined (A₁ ++ [p]), r.addr = p.addr
    · -- the block stays in the list
      obtain ⟨A₂, hA₂⟩ := Block.joined_concat
        (hfreed.sublist (List.sublist_append_left (A₁ ++ [p]) C₁)) hkept
      have hlink : linkOf (Block.joined C₁) = linkOf C := linkOf_joined_freeAt _ C
      rw [hA₂, List.append_assoc, List.singleton_append] at hlinked hpl hrest hDtail
      rw [← hlink]
      refine ih hrest hlinked hpl (hA₂ ▸ htA.joined) (fun c hc => ?_) hDtail
      obtain ⟨r, hr, hrc, -⟩ := Block.head?_joined_freeAt hc
      exact hrc ▸ hC r hr
    · -- the block leaves the list, and nothing is written to its header
      have hapart := Block.apart_of_left hfreed hkept
      refine hl.of_append.1.congr fun y h1 h2 => ?_
      rw [hrest.frame hDtail y fun z hz => ?_, hf.frame y ?_ fun r hr => ?_]
      · rcases hp.eq_or_apart hq hmem with hqp' | hle | hle
        · exact absurd (congrArg Block.addr hqp') hqp
        all_goals omega
      · rw [hlist, hjoin] at hr
        have := hapart r hr
        omega
      · obtain ⟨r, hr, rfl⟩ := List.mem_map.1 hz
        have := hapart r hr
        omega

end JarvisOS
