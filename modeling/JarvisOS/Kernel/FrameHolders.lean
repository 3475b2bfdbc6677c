import JarvisOS.Kernel.Ledger
import JarvisOS.Kernel.Shell

/-!
# Every frame in use has one holder

Two parties map frames outside the identity window: `cmd_map`, at any address that is not mapped,
and the heap, at its break. The heap does not ask whether a page is mapped, and a page mapped above
the break is mapped over by the next growth; its frame is then in use and held by nobody
(`frame_without_holder`). As long as every growth is onto pages that are not mapped, each frame
taken since `pmm_init` has exactly one holder (`frames_held_once`).
-/

namespace JarvisOS

open Foundations Prog

/-- The commands whose effect on frames is counted: no page of the heap is unmapped, requests go up
to the size of the window, and `kfree` is given live pointers other than stacks. -/
def Counted (p : ShellState) : ShellCommand → Prop
  | .unmap addr => addr < heapStart ∨ p.heap.brk ≤ addr
  | .kmalloc size => 1 ≤ size ∧ size ≤ heapMax
  | .kfree addr => OwnBlock p addr
  | _ => True

/-- If the heap has to grow for a payload and the ceiling allows it, then none of the pages that it
will be granted is mapped yet. -/
def GrowsFresh (size : ℕ) (s : HeapState Paging) : Prop :=
  s.ready ≠ 0 → NoFit size s → s.brk + growthPages size * pageSize ≤ heapStart + heapMax →
    ∀ i < kernelBacking.grants (growthPages size) s.brk s.env,
      s.env.pagingTranslate (s.brk + i * pageSize) = pageUnmapped

/-- The growth that the command may cause is onto fresh pages. -/
def AsksFresh (p : ShellState) (c : ShellCommand) : Prop :=
  ∀ size, c.asks p.sched = some size → GrowsFresh size p.heap

section Steps

variable {p₀ : Pmm} {p q : ShellState} {c : ShellCommand}

/-- Counted commands keep the heap sound. -/
theorem Counted.sound (hp : ShellInv p) (hc : Counted p c) : Sound p c := by
  cases c with
  | kmalloc size =>
    obtain ⟨h1, h2⟩ := hc
    exact fun _ => hp.growthInWindow (by omega)
  | kfree addr => exact Or.inl hc
  | _ => trivial

/-- What a counted command asks for does not make the break wrap around. -/
theorem Counted.growth_lt (hp : ShellInv p) (hc : Counted p c) {size : ℕ}
    (hasks : c.asks p.sched = some size) : p.heap.brk + growthPages size * pageSize < 2 ^ 32 := by
  cases c with
  | kmalloc n =>
    obtain ⟨h1, h2⟩ := hc
    obtain rfl := Option.some.inj ((if_pos (show 0 < n by omega)).symm.trans hasks)
    exact growth_lt_of_ceiling hp.brk_le (by omega)
  | task op =>
    cases op with
    | create name entry =>
      obtain ⟨slot, -, rfl⟩ := Option.map_eq_some_iff.1 hasks
      exact growth_lt_of_ceiling hp.brk_le (by decide)
    | _ => cases hasks
  | _ => cases hasks

/-- Growing onto pages that are not mapped loses no frame. -/
theorem Ledger.mapPages_fresh {tabs pages : ℕ → Option ℕ} {frames : List ℕ} {s : HeapState Paging}
    {count virt : ℕ} (h : Ledger p₀ s.env tabs pages frames ∅) (hlo : heapStart ≤ virt)
    (hhi : virt + (JarvisOS.mapPages kernelBacking count virt s).1 * pageSize ≤ heapStart + heapMax)
    (hno : ∀ i < (JarvisOS.mapPages kernelBacking count virt s).1,
      pages (virt / pageSize + i) = none) :
    ∃ tabs' pages',
      Ledger p₀ (JarvisOS.mapPages kernelBacking count virt s).2.env tabs' pages' frames ∅ := by
  have hend : s.env.identityEnd ≤ virt := (h.window.trans (by decide)).trans hlo
  have hlt := Nat.lt_of_le_of_lt hhi window_lt
  obtain ⟨tabs', pages', hnext, -⟩ := h.mapPages hend hlt
  refine ⟨tabs', pages', hnext.congr fun a => ?_⟩
  rw [Set.empty_union]
  refine iff_of_false (Set.notMem_empty a) ?_
  rintro ⟨i, hi, ha⟩
  rw [hno i hi] at ha
  cases ha

/-- A growth onto fresh pages keeps the books in order. -/
theorem Ledger.grown {tabs pages : ℕ → Option ℕ} {frames : List ℕ} {s t : HeapState Paging}
    {size : ℕ}
    (h : Ledger p₀ s.env tabs pages frames ∅) (hlo : heapStart ≤ s.brk)
    (hlt : s.brk + growthPages size * pageSize < 2 ^ 32) (hg : Grown size s t)
    (hfresh : GrowsFresh size s) : ∃ tabs' pages', Ledger p₀ t.env tabs' pages' frames ∅ := by
  have hpass := hg.pass
  rw [u32_of_lt hlt] at hpass
  rw [hg.env]
  refine h.mapPages_fresh hlo hg.window fun i hi => ?_
  have hi' : s.brk + i * pageSize < 2 ^ 32 :=
    (Nat.add_le_add_left (Nat.mul_le_mul_right pageSize (hi.le.trans (mapPages_le ..)))
      _).trans_lt hlt
  rw [mapPages_fst] at hi
  have hno := (h.map.pagingTranslate_eq_unmapped hi').1 (hfresh hg.ready hg.noFit hpass i hi)
  rwa [Nat.add_mul_div_right _ _ (by decide)] at hno

/-- **The invariant**: the heap is sound, the books are in order, and no frame is lost. -/
structure BooksInv (p₀ : Pmm) (p : ShellState) : Prop where
  shell : ShellInv p
  ledger : ∃ tabs pages, Ledger p₀ p.env tabs pages p.frames ∅

/-- **Every counted step keeps the invariant**, if the growth that it asks for is fresh. -/
theorem BooksInv.step {taskExitAddr : ℕ} (h : BooksInv p₀ p) (hc : Counted p c) (hf : AsksFresh p c)
    (hs : ShellStep taskExitAddr c p q) : BooksInv p₀ q := by
  obtain ⟨hshell, htables⟩ := hs.inv h.shell (hc.sound h.shell)
  obtain ⟨tabs, pages, hl⟩ := h.ledger
  refine ⟨hshell, ?_⟩
  cases htables with
  | alloc henv _ hframes =>
    rw [henv, hframes]
    exact ⟨tabs, pages, hl.alloc⟩
  | map ha henv _ hframes =>
    rw [henv, hframes]
    obtain ⟨tabs', pages', hnext, -⟩ := hl.cmdMap ha
    exact ⟨tabs', pages', hnext⟩
  | unmap ha henv _ hframes =>
    rw [henv, hframes]
    obtain ⟨pages', hnext, -⟩ := hl.cmdUnmap ha
    exact ⟨tabs, pages', hnext⟩
  | kept henv _ hframes =>
    rw [henv, hframes]
    exact ⟨tabs, pages, hl⟩
  | grown hasks hgrown hframes =>
    rw [hframes]
    exact hl.grown h.shell.heapStart_le (hc.growth_lt h.shell hasks) hgrown (hf _ hasks)

end Steps

section Runs

variable {img : KernelImage} {mm : MemMap} {ram : Bitmap} {m : Mem} {taskExitAddr : ℕ}
  {p : ShellState}

/-- After boot the books are in order, unless `pmm_init` has left no frame free. -/
theorem BooksInv.started (hfree : ∃ f < (Pmm.pmmInit img mm ram).totalFrames,
      (Pmm.pmmInit img mm ram).frameTest f = false)
    (h : ShellStarted (bootPaging mm ⟨Pmm.pmmInit img mm ram, []⟩ m) p) :
    BooksInv (Pmm.pmmInit img mm ram) p := by
  obtain ⟨hshell, m', henv, -⟩ := h.inv
  obtain ⟨tabs, pages, hl, hno⟩ := Ledger.boot img mm ram m hfree
  refine ⟨hshell, ?_⟩
  rw [henv, h.frames]
  set boot := bootPaging mm ⟨Pmm.pmmInit img mm ram, []⟩ m
  have hcount := mapPages_le (B := kernelBacking) initialPages heapStart (heapEmpty m' boot)
  refine Ledger.mapPages_fresh (s := heapEmpty m' boot) hl le_rfl ?_ fun i _ => hno _ ?_
  · exact Nat.add_le_add_left ((Nat.mul_le_mul_right pageSize hcount).trans (by decide)) _
  · exact (Nat.div_le_div_right (hl.window.trans (by decide))).trans (Nat.le_add_right _ i)

/-- **Every frame in use has exactly one holder.** From any boot, in every state reached by counted
steps whose growths are onto pages that are not mapped: each frame that `pmm_init` has left free and
that is in use is the page directory, or one page table, or one frame handed out by `alloc`, or what
one present entry outside the identity window leads to, and only one of these. -/
theorem frames_held_once
    (h : ShellReach taskExitAddr (ShellStarted (bootPaging mm ⟨Pmm.pmmInit img mm ram, []⟩ m))
      (fun p c => Counted p c ∧ AsksFresh p c) p)
    {f : ℕ} (hlt : f < (Pmm.pmmInit img mm ram).totalFrames)
    (hfree : (Pmm.pmmInit img mm ram).frameTest f = false)
    (hused : p.env.pmm.frameTest f = true) : ∃! k, p.env.HeldBy p.frames k (4096 * f) := by
  have hinv := h.invariant (I := BooksInv (Pmm.pmmInit img mm ram))
    (fun _ h0 => BooksInv.started ⟨f, hlt, hfree⟩ h0)
    fun _ _ _ hp ⟨_, ⟨hc, hf⟩, hs⟩ => hp.step hc hf hs
  obtain ⟨tabs, pages, hl⟩ := hinv.ledger
  exact hl.existsUnique_holder (hl.books.total ▸ hlt) hused hfree (Set.notMem_empty _)

end Runs

/-! ## The small machine -/

/-- The small machine after boot. -/
def smallShell : ShellState := ⟨Sched.schedulerInit Sched.zeroed, ⟨smallHeap, ∅⟩, []⟩

theorem smallShell_started : ShellStarted smallPaging smallShell :=
  ⟨rfl, ⟨⟨_, run_smallHeap⟩, rfl⟩, rfl⟩

theorem smallFrames_free : (Pmm.pmmInit smallImage smallMap fun _ => 0#32).frameTest 21 = false ∧
    21 < (Pmm.pmmInit smallImage smallMap fun _ => 0#32).totalFrames := by
  decide +kernel

/-- On the small machine `alloc` hands out the frame at `0x15000` after boot, and nobody else
holds it. -/
theorem frames_held_once_small : ∃ p, ShellStep 0 .alloc smallShell p ∧
    ∃! k, p.env.HeldBy p.frames k (4096 * 21) := by
  have hstep : ShellStep 0 .alloc smallShell _ := .alloc smallShell
  have hstart : ShellReach 0
      (ShellStarted (bootPaging smallMap ⟨Pmm.pmmInit smallImage smallMap fun _ => 0#32, []⟩
        fun _ => 0))
      (fun p c => Counted p c ∧ AsksFresh p c) smallShell := .start smallShell_started
  refine ⟨_, hstep, frames_held_once (hstart.next ⟨.alloc, ⟨trivial, fun _ h => nomatch h⟩, hstep⟩)
    smallFrames_free.2 smallFrames_free.1 ?_⟩
  show smallHeap.env.pmm.cmdAlloc.2.2.frameTest 21 = true
  decide +kernel

/-- The page after the heap has been mapped from the shell. -/
def smallMapped : ShellState :=
  ⟨smallShell.sched, ⟨smallHeap.onConsole (smallHeap.env.cmdMap 0xC0010000), ∅⟩, []⟩

/-- **A frame without a holder.** On the small machine `map 0xC0010000` maps the page at the break,
and a call for 64 KiB, which fails, maps another frame there: the first one stays in use, and is
neither the directory, nor a table, nor handed out, nor mapped anywhere. -/
theorem frame_without_holder : ∃ p, ShellReach 0 (ShellStarted smallPaging) Counted p ∧
    ∃ f < (Pmm.pmmInit smallImage smallMap fun _ => 0#32).totalFrames,
      (Pmm.pmmInit smallImage smallMap fun _ => 0#32).frameTest f = false ∧
      p.env.pmm.frameTest f = true ∧ ¬ ∃ k, p.env.HeldBy p.frames k (4096 * f) := by
  have hstart := BooksInv.started (m := fun _ => 0)
    ⟨21, smallFrames_free.2, smallFrames_free.1⟩ smallShell_started
  have hmap : ShellStep 0 (.map 0xC0010000) smallShell smallMapped := .map _ (by decide)
  have hmapped := hstart.step (show Counted smallShell (.map 0xC0010000) from trivial)
    (fun _ h => nomatch h) hmap
  have hbrk : smallMapped.heap.brk = 0xC0010000 := by decide +kernel
  have hfilled : smallMapped.env.pagingTranslate 0xC0010000 ≠ pageUnmapped := by decide +kernel
  have hgranted : kernelBacking.grants (growthPages (align8 65536)) smallMapped.heap.brk
      smallMapped.heap.env = 2 := by decide +kernel
  -- the call for 64 KiB grows the heap, and fails
  have hrun : run (heapAct kernelBacking) (kmalloc 65536) smallMapped.heap =
      some (0, after (heapAct kernelBacking) (kmalloc 65536) smallMapped.heap) :=
    run_eq_after _ (by decide +kernel)
  have hused : smallMapped.heap.env.pmm.usedFrames ≠
      (after (heapAct kernelBacking) (kmalloc 65536) smallMapped.heap).env.pmm.usedFrames := by
    decide +kernel
  generalize after (heapAct kernelBacking) (kmalloc 65536) smallMapped.heap = t at hrun hused
  obtain ⟨_, _, hrun', -, heffect⟩ := hmapped.shell.run_kmalloc (n := 65536) (by decide) (by decide)
    (hmapped.shell.growthInWindow (by decide))
  obtain ⟨rfl, rfl⟩ := Prod.mk.inj (Option.some.inj (hrun.symm.trans hrun'))
  have hgrown :=
    heffect.resolve_left fun hk => hused (congrArg (fun e => e.pmm.usedFrames) hk.1.symm)
  have hcmd : smallMapped.heap.cmdKmalloc 65536 =
      some (0, t.printed [.str "kmalloc failed: heap exhausted\n"]) := by
    rw [HeapState.cmdKmalloc, if_neg (by decide), show (65536 : ℤ).toNat = 65536 from rfl, hrun]
    rfl
  have hreach : ShellReach 0 (ShellStarted smallPaging) Counted smallMapped :=
    (Reach.start smallShell_started).next ⟨.map 0xC0010000, trivial, hmap⟩
  refine ⟨_, hreach.next ⟨.kmalloc 65536, ⟨by decide, by decide⟩,
    .kmalloc smallMapped (by decide) hcmd⟩, ?_⟩
  obtain ⟨tabs, pages, hl⟩ := hmapped.ledger
  have hend : smallMapped.env.identityEnd ≤ smallMapped.heap.brk := by decide +kernel
  obtain ⟨tabs', pages', hnext, -⟩ := hl.mapPages hend (Nat.lt_of_le_of_lt hgrown.window window_lt)
  rw [← hgrown.env] at hnext
  -- the frame that the shell has mapped is lost
  have hsome := mt (hl.map.pagingTranslate_eq_unmapped (by decide)).2 hfilled
  obtain ⟨a, ha⟩ := Option.ne_none_iff_exists'.1 hsome
  have hlost : a ∈ (∅ : Set ℕ) ∪ {a | ∃ i < (mapPages kernelBacking (growthPages (align8 65536))
      smallMapped.heap.brk smallMapped.heap).1, pages (smallMapped.heap.brk / pageSize + i) =
        some a} := by
    refine Set.mem_union_right _ ⟨0, ?_, ?_⟩
    · rw [mapPages_fst, hgranted]
      decide
    · rw [hbrk]
      exact ha
  obtain ⟨f, hlt, rfl, hf, hf₀⟩ := hnext.books.lost_taken a hlost
  exact ⟨f, hnext.books.total ▸ hlt, hf₀, hf, hnext.no_holder hlost⟩

end JarvisOS
