import JarvisOS.Heap.Accesses
import JarvisOS.Kernel.FrameHolders

/-!
# The heap stays mapped

The heap, the stacks of tasks and the shell share one tree of page tables. `cmd_unmap` refuses the
identity window only, so that a page of the heap can be taken away (`heap_page_unmapped`). As long
as it is not, and the heap is used soundly, every page below the break leads to a frame of its own,
and neither a call of the heap nor a stack can fault (`heap_stays_mapped`).
-/

namespace JarvisOS

open Foundations Prog Sched

/-! ## Accesses that do not fault -/

/-- Every address of the heap below the break is mapped. -/
def HeapMapped (env : Paging) (brk : ℕ) : Prop :=
  ∀ v, heapStart ≤ v → v < brk → env.pagingTranslate v ≠ pageUnmapped

/-- Run from `s`, the program reads and writes only words that are mapped at that time. -/
def NoFault {α : Type} (prog : HeapM α) (s : HeapState Paging) : Prop :=
  Meets (heapAct kernelBacking) (fun t o => ∀ a, o.address = some a → ∀ y, a ≤ y → y < a + 4 →
    t.env.pagingTranslate y ≠ pageUnmapped) prog s

theorem NoFault.of_within {α : Type} {prog : HeapM α} {s : HeapState Paging}
    (h : Meets (heapAct kernelBacking) (Within HeapMapped) prog s) : NoFault prog s := by
  refine h.mono fun t o ht a ha y h1 h2 => ?_
  obtain ⟨hlo, hhi, hmapped⟩ := ht a ha
  exact hmapped y (hlo.trans h1) (by omega)

/-- `kfree` of a live pointer does not fault. -/
theorem HeapInv.noFault_kfree {s : HeapState Paging} {live : Set (ℕ × ℕ)} {l : List Seg}
    (h : HeapInv ⟨s, live⟩ l) (hm : HeapMapped s.env s.brk) {b : ℕ × ℕ} (hb : b ∈ live) :
    NoFault (JarvisOS.kfree b.1) s := by
  obtain ⟨pre, x, post, rfl, hx, -, hptr⟩ := h.exists_block hb
  rw [hptr]
  exact .of_within (h.tiled.within_kfree hx hm)

/-- A live block lies below the break. -/
theorem HeapInv.block_below {s : HeapState Paging} {live : Set (ℕ × ℕ)} {l : List Seg}
    (h : HeapInv ⟨s, live⟩ l) {b : ℕ × ℕ} (hb : b ∈ live) : heapStart ≤ b.1 ∧
      b.1 + b.2 ≤ s.brk := by
  obtain ⟨pre, x, post, rfl, -, hle, hptr⟩ := h.exists_block hb
  have htiles : _ = s.brk := h.tiled.tiles
  rw [Seg.span_append, Seg.span_cons] at htiles
  omega

/-! ## The invariant -/

theorem identityBytes_le_heapStart : identityBytes ≤ heapStart := by decide

/-- The books have an entry for every page from the start of the heap up to `brk`. -/
def Backed (p₀ : Pmm) (frames : List ℕ) (e : Paging) (brk : ℕ) : Prop :=
  ∃ tabs pages lost, Ledger p₀ e tabs pages frames lost ∧
    ∀ page, heapStart / pageSize ≤ page → page * pageSize < brk → (pages page).isSome

namespace Backed

variable {p₀ : Pmm} {frames : List ℕ} {e : Paging} {brk v : ℕ}

/-- **What lies below the break** leads to a frame in use, to which no other page outside the
identity window leads. -/
theorem frame (h : Backed p₀ frames e brk) (hle : brk ≤ heapStart + heapMax) (h1 : heapStart ≤ v)
    (h2 : v < brk) :
    ∃ f < e.pmm.totalFrames, e.pmm.frameTest f = true ∧
      e.pagingTranslate v = 4096 * f + v % pageSize ∧
      ∀ w, e.identityEnd ≤ w → w < 2 ^ 32 → w / pageSize ≠ v / pageSize →
        e.pagingTranslate w / pageSize ≠ f := by
  obtain ⟨tabs, pages, lost, hl, hall⟩ := h
  have hlt := Nat.lt_of_lt_of_le h2 hle
  refine hl.backed ((hl.window.trans identityBytes_le_heapStart).trans h1) (hlt.trans window_lt) ?_
  exact hall _ (Nat.div_le_div_right h1) ((Nat.div_mul_le_self v pageSize).trans_lt h2)

theorem mapped (h : Backed p₀ frames e brk) (hle : brk ≤ heapStart + heapMax) :
    HeapMapped e brk := by
  intro v h1 h2
  obtain ⟨f, hlt, -, htrans, -⟩ := h.frame hle h1 h2
  obtain ⟨tabs, pages, lost, hl, -⟩ := h
  have hsmall := hl.map.sound.sized.total_lt
  rw [htrans]
  simp only [pageUnmapped, pageSize]
  omega

/-- **A growth** keeps the pages of the heap, and maps those that it adds. -/
theorem mapPages {s : HeapState Paging} (h : Backed p₀ frames s.env brk) (hlo : heapStart ≤ brk)
    (hpage : pageSize ∣ brk) (count : ℕ)
    (hhi : brk + (mapPages kernelBacking count brk s).1 * pageSize ≤ heapStart + heapMax) :
    Backed p₀ frames (JarvisOS.mapPages kernelBacking count brk s).2.env
      (brk + (JarvisOS.mapPages kernelBacking count brk s).1 * pageSize) := by
  obtain ⟨tabs, pages, lost, hl, hall⟩ := h
  obtain ⟨k, hk⟩ := hpage
  have hend := (hl.window.trans identityBytes_le_heapStart).trans hlo
  have hlt := Nat.lt_of_le_of_lt hhi window_lt
  obtain ⟨tabs', pages', hnext, hkeep, hnew⟩ := hl.mapPages hend hlt
  refine ⟨tabs', pages', _, hnext, fun page hstart hbelow => ?_⟩
  by_cases hold : page * pageSize < brk
  · exact hkeep page (hall page hstart hold)
  · -- a page that the growth has added
    have hdiv : brk / pageSize = k := by rw [hk, Nat.mul_div_cancel_left _ (by decide)]
    generalize (JarvisOS.mapPages kernelBacking count brk s).1 = granted at hnew hbelow
    have hle : k ≤ page := by
      simp only [pageSize] at *
      omega
    have hadded : page - k < granted := by
      simp only [pageSize] at *
      omega
    have hsome := hnew _ hadded
    rwa [hdiv, Nat.add_sub_cancel' hle] at hsome

/-- A lower break. -/
theorem mono (h : Backed p₀ frames e brk) {brk' : ℕ} (hle : brk' ≤ brk) :
    Backed p₀ frames e brk' := by
  obtain ⟨tabs, pages, lost, hl, hall⟩ := h
  exact ⟨tabs, pages, lost, hl, fun page h1 h2 => hall page h1 (h2.trans_le hle)⟩

end Backed

/-- The commands that keep the heap mapped: they use the heap soundly, and unmap no page of it. -/
def KeepsHeap (p : ShellState) (c : ShellCommand) : Prop :=
  Sound p c ∧ ∀ addr, c = .unmap addr → addr < heapStart ∨ p.heap.brk ≤ addr

/-- **The invariant**: the heap is sound and ready, and each of its pages has its entry. -/
structure MappedInv (p₀ : Pmm) (p : ShellState) : Prop where
  shell : ShellInv p
  up : heapStart < p.heap.brk
  backed : Backed p₀ p.frames p.env p.heap.brk

namespace MappedInv

variable {p₀ : Pmm} {p q : ShellState} {c : ShellCommand}

theorem heap (h : MappedInv p₀ p) : ∃ l, HeapInv p.kernel l := by
  rcases h.shell.heap_cases with ⟨-, hbrk, -⟩ | hl
  · exact absurd hbrk h.up.ne'
  · exact hl

theorem mapped (h : MappedInv p₀ p) : HeapMapped p.env p.heap.brk := h.backed.mapped h.shell.brk_le

theorem page_dvd (h : MappedInv p₀ p) : pageSize ∣ p.heap.brk :=
  h.heap.elim fun _ hl => hl.tiled.page

theorem grown (h : MappedInv p₀ p) {size : ℕ} {t : HeapState Paging} (hg : Grown size p.heap t) :
    heapStart < t.brk ∧ Backed p₀ p.frames t.env t.brk := by
  have hnext := h.backed.mapPages h.up.le h.page_dvd _ hg.window
  have hup := h.up
  rw [hg.env]
  rcases hg.brk with hbrk | hbrk
  · rw [hbrk]
    exact ⟨hup, hnext.mono (Nat.le_add_right _ _)⟩
  · rw [hbrk]
    exact ⟨hup.trans_le (Nat.le_add_right _ _), hnext⟩

/-- **Every step that keeps the heap** keeps the invariant. -/
theorem step (h : MappedInv p₀ p) {taskExitAddr : ℕ} (hc : KeepsHeap p c)
    (hs : ShellStep taskExitAddr c p q) : MappedInv p₀ q := by
  obtain ⟨hshell, htables⟩ := hs.inv h.shell hc.1
  obtain ⟨tabs, pages, lost, hl, hall⟩ := h.backed
  have hup := h.up
  cases htables with
  | alloc henv hbrk hframes =>
    refine ⟨hshell, hbrk.symm ▸ hup, ?_⟩
    rw [henv, hframes, hbrk]
    exact ⟨tabs, pages, lost, hl.alloc, hall⟩
  | map ha henv hbrk hframes =>
    obtain ⟨tabs', pages', hnext, hkeep⟩ := hl.cmdMap ha
    refine ⟨hshell, hbrk.symm ▸ hup, ?_⟩
    rw [henv, hframes, hbrk]
    exact ⟨tabs', pages', lost, hnext, fun page h1 h2 => hkeep page (hall page h1 h2)⟩
  | @unmap addr ha henv hbrk hframes =>
    obtain ⟨pages', hnext, hkeep⟩ := hl.cmdUnmap ha
    refine ⟨hshell, hbrk.symm ▸ hup, ?_⟩
    rw [henv, hframes, hbrk]
    refine ⟨tabs, pages', lost, hnext, fun page h1 h2 => ?_⟩
    rw [hkeep page ?_]
    · exact hall page h1 h2
    · -- the page unmapped lies below the heap or above it
      rintro rfl
      obtain ⟨k, hk⟩ := h.page_dvd
      have hout := hc.2 addr rfl
      simp only [heapStart, pageSize] at *
      omega
  | kept henv hbrk hframes =>
    refine ⟨hshell, hbrk.symm ▸ hup, ?_⟩
    rw [henv, hframes, hbrk]
    exact ⟨tabs, pages, lost, hl, hall⟩
  | grown _ hgrown hframes =>
    obtain ⟨hup, hbacked⟩ := h.grown hgrown
    exact ⟨hshell, hup, hframes.symm ▸ hbacked⟩

/-! ### What cannot fault -/

theorem noFault_kmalloc (h : MappedInv p₀ p) {n : ℕ} (h1 : 1 ≤ n) (h2 : n < 2 ^ 31)
    (hw : GrowthInWindow kernelBacking (align8 n) p.heap) : NoFault (kmalloc n) p.heap := by
  obtain ⟨l, hinv⟩ := h.heap
  refine .of_within (hinv.tiled.within_kmalloc h1 h2 hw h.mapped fun hceil hall => ?_)
  rw [← hall] at hceil
  have hnext := (h.backed.mapPages h.up.le h.page_dvd _ hceil).mapped hceil
  rwa [hall] at hnext

theorem noFault_kfree (h : MappedInv p₀ p) {addr : ℕ} (ha : addr < 2 ^ 32)
    (hs : OwnBlock p addr ∨ Rejected p.heap addr) : NoFault (kfree addr) p.heap := by
  obtain ⟨l, hinv⟩ := h.heap
  rcases hs with ⟨⟨b, hb, rfl⟩, -⟩ | hrej
  · exact hinv.noFault_kfree h.mapped hb
  · obtain ⟨out, hrun⟩ := runs_kfree_rejected (B := kernelBacking)
      (h.shell.brk_le.trans_lt window_lt) ha hrej
    exact .of_within (within_of_runs (only_kfree addr) hrun h.mapped)

/-- The calls that `reap` makes. -/
theorem noFault_reap (h : MappedInv p₀ p) :
    ∀ c ∈ reapLog (heapApi kernelBacking) p.sched (some p.kernel),
    ∃ r, c.before = some r ∧ NoFault (kfree c.ptr) r.heap := by
  intro c hc
  obtain ⟨L₀, hs⟩ := h.shell.owned
  have hquiet : StackInv (fun k => BootedHeap k ∧ HeapKept p.env p.heap.brk k) liveOf L₀ p.sched
      (some p.kernel) := by
    refine ⟨⟨hs.heap, ?_⟩, hs.live_eq, hs.fresh, hs.distinct⟩
    rintro r hr
    obtain rfl := Option.some.inj hr
    exact ⟨rfl, rfl⟩
  rw [← reapLog_quiet] at hc
  have hspec := heapApi_spec_kept (B := kernelBacking) p.env p.heap.brk
  have hzero : ∀ i, Owns p.sched i → i ≠ p.sched.current → (p.sched.tasks i).stackBase ≠ 0 :=
    fun i hi _ => (hs.fresh i hi).1
  obtain ⟨⟨hbooted, hkept⟩, hlive, -⟩ := hquiet.reapLog_good hspec hzero c hc
  obtain ⟨r, l, e, hinv⟩ := hbooted.ok hlive
  obtain ⟨henv, hbrk⟩ := hkept r e
  rw [e] at hlive
  refine ⟨r, e, hinv.noFault_kfree ?_ hlive⟩
  rw [henv, hbrk]
  exact h.mapped

/-- The stack of a task is mapped. -/
theorem stack_mapped (h : MappedInv p₀ p) {i : ℕ} (hi : Owns p.sched i) {y : ℕ}
    (h1 : (p.sched.tasks i).stackBase ≤ y) (h2 : y < (p.sched.tasks i).stackBase + taskStackSize) :
    p.env.pagingTranslate y ≠ pageUnmapped := by
  obtain ⟨L₀, hs⟩ := h.shell.owned
  obtain ⟨l, hinv⟩ := h.heap
  obtain ⟨hlo, hhi⟩ := hinv.block_below ((hs.live_eq _).2 (Or.inr ⟨i, hi, rfl⟩))
  exact h.mapped y (hlo.trans h1) (h2.trans_le hhi)

end MappedInv

/-! ## Every run -/

section Runs

variable {img : KernelImage} {mm : MemMap} {ram : Bitmap} {m : Mem} {taskExitAddr : ℕ}
  {p : ShellState}

/-- If a page has been granted after boot, `pmm_init` has left a frame free. -/
theorem exists_free_of_granted {s : HeapState Paging} {count virt : ℕ}
    (henv : s.env = bootPaging mm ⟨Pmm.pmmInit img mm ram, []⟩ m)
    (hgranted : (mapPages kernelBacking count virt s).1 ≠ 0) :
    ∃ f < (Pmm.pmmInit img mm ram).totalFrames, (Pmm.pmmInit img mm ram).frameTest f = false := by
  have hsound := (FrameReach.init img mm ram).sound
  rcases Paging.pagingInit_cases hsound
    (P := fun _ _ _ => ∃ f < (Pmm.pmmInit img mm ram).totalFrames,
      (Pmm.pmmInit img mm ram).frameTest f = false) (fun f _ hf => ⟨f, hf.1.1, hf.1.2⟩)
      (fun h _ => h) mm.highest.isLt (pmmInit_totalFrames img mm ram) m with
    ⟨hall, hpmm, -⟩ | ⟨_, _, _, -, hfree, -⟩
  swap
  · exact hfree
  -- without a frame nothing is granted
  have hpmm : s.env.pmm = Pmm.pmmInit img mm ram := henv ▸ hpmm
  have hrefused : s.env.mapFresh virt = (none, s.env) := by
    rcases hsound.pmmAllocFrame_spec with ⟨e, -⟩ | ⟨f, -, hf, -⟩
    · have e : s.env.pmm.pmmAllocFrame = (0, s.env.pmm) := hpmm.symm ▸ e
      rw [Paging.mapFresh, e]
      exact if_pos rfl
    · have hused := hall f hf.1.1
      have hfree := hf.1.2
      simp only at hused hfree
      rw [hused] at hfree
      cases hfree
  refine absurd ?_ hgranted
  cases count with
  | zero => rfl
  | succ count =>
    obtain ⟨hno, -⟩ := mapPage_kernelBacking virt s
    rw [hrefused] at hno
    rw [mapPages_succ_of_refused hno]

/-- After a boot in which `heap_init` has succeeded the heap is mapped. -/
theorem MappedInv.started (h : ShellStarted (bootPaging mm ⟨Pmm.pmmInit img mm ram, []⟩ m) p)
    (hready : p.heap.ready = 1) : MappedInv (Pmm.pmmInit img mm ram) p := by
  obtain ⟨hshell, m', henv, hmapped⟩ := h.inv
  obtain ⟨hall, hbrk⟩ := hmapped hready
  obtain ⟨tabs, pages, hl, hno⟩ := Ledger.boot img mm ram m
    (exists_free_of_granted rfl (hall.trans_ne (by decide)))
  refine ⟨hshell, hbrk ▸ by decide, ?_⟩
  have hstart : Backed (Pmm.pmmInit img mm ram) []
      (heapEmpty m' (bootPaging mm ⟨Pmm.pmmInit img mm ram, []⟩ m)).env heapStart :=
    ⟨tabs, pages, ∅, hl, fun page h1 h2 => by simp only [heapStart, pageSize] at *; omega⟩
  have hnext := hstart.mapPages le_rfl (by decide) initialPages (by rw [hall]; decide)
  rw [henv, h.frames, hbrk]
  rwa [hall] at hnext

/-- **The heap stays mapped.** From any boot in which `heap_init` succeeds, in every state reached
by steps that use the heap soundly and unmap no page of it: every address from the start of the heap
up to the break leads into a frame in use, to which no other page outside the identity window leads;
no call of `kmalloc`, `kfree` or `reap` accesses a word that is not mapped; and the stacks of all
tasks are mapped. -/
theorem heap_stays_mapped
    (h : ShellReach taskExitAddr (fun p =>
      ShellStarted (bootPaging mm ⟨Pmm.pmmInit img mm ram, []⟩ m) p ∧ p.heap.ready = 1)
        KeepsHeap p) :
    (∀ v, heapStart ≤ v → v < p.heap.brk →
      ∃ f < p.env.pmm.totalFrames, p.env.pmm.frameTest f = true ∧
        p.env.pagingTranslate v = 4096 * f + v % pageSize ∧
        ∀ w, p.env.identityEnd ≤ w → w < 2 ^ 32 → w / pageSize ≠ v / pageSize →
          p.env.pagingTranslate w / pageSize ≠ f) ∧
    (∀ n, 1 ≤ n → n < 2 ^ 31 → GrowthInWindow kernelBacking (align8 n) p.heap →
      NoFault (kmalloc n) p.heap) ∧
    (∀ addr < 2 ^ 32, OwnBlock p addr ∨ Rejected p.heap addr → NoFault (kfree addr) p.heap) ∧
    (∀ c ∈ reapLog (heapApi kernelBacking) p.sched (some p.kernel),
      ∃ r, c.before = some r ∧ NoFault (kfree c.ptr) r.heap) ∧
    ∀ i, Owns p.sched i → ∀ y, (p.sched.tasks i).stackBase ≤ y →
      y < (p.sched.tasks i).stackBase + taskStackSize → p.env.pagingTranslate y ≠ pageUnmapped := by
  have hinv := h.invariant (I := MappedInv (Pmm.pmmInit img mm ram))
    (fun _ h0 => MappedInv.started h0.1 h0.2) fun _ _ _ hp ⟨_, hc, hs⟩ => hp.step hc hs
  refine ⟨fun v h1 h2 => hinv.backed.frame hinv.shell.brk_le h1 h2,
    fun n h1 h2 hw => hinv.noFault_kmalloc h1 h2 hw, fun addr ha hs => hinv.noFault_kfree ha hs,
    hinv.noFault_reap, fun i hi y h1 h2 => hinv.stack_mapped hi h1 h2⟩

end Runs

/-! ## The small machine -/

theorem smallHeap_ready : smallHeap.ready = 1 := by decide +kernel

/-- On the small machine the first header of the heap is mapped after boot, and `kmalloc` does not
fault. -/
theorem heap_stays_mapped_small : NoFault (kmalloc 64) smallHeap := by
  have hstart : ShellReach 0 (fun p => ShellStarted (bootPaging smallMap
      ⟨Pmm.pmmInit smallImage smallMap fun _ => 0#32, []⟩ fun _ => 0) p ∧ p.heap.ready = 1)
        KeepsHeap
      smallShell := .start ⟨smallShell_started, smallHeap_ready⟩
  have hw : GrowthInWindow kernelBacking (align8 64) smallHeap := Or.inl (by decide +kernel)
  exact (heap_stays_mapped hstart).2.1 64 (by decide) (by decide) hw

/-- The first page of the heap has been unmapped from the shell. -/
def smallUnmapped : ShellState :=
  ⟨smallShell.sched, ⟨smallHeap.onConsole (smallHeap.env.cmdUnmap heapStart), ∅⟩, []⟩

/-- **A page of the heap that is not mapped.** On the small machine `unmap 0xC0000000` is not
refused: the first page of the heap is gone, and the next `kmalloc` reads a header there. -/
theorem heap_page_unmapped :
    ShellReach 0 (fun p => ShellStarted smallPaging p ∧ p.heap.ready = 1) Sound
      smallUnmapped ∧ heapStart < smallUnmapped.heap.brk ∧
    smallUnmapped.env.pagingTranslate heapStart = pageUnmapped ∧
    ¬ NoFault (kmalloc 64) smallUnmapped.heap := by
  have hstep : ShellStep 0 (.unmap heapStart) smallShell smallUnmapped := .unmap _ (by decide)
  refine ⟨(Reach.start ⟨smallShell_started, smallHeap_ready⟩).next ⟨.unmap heapStart, trivial,
    hstep⟩, by decide +kernel, by decide +kernel, fun hno => ?_⟩
  -- the search reads the word `free` of the first header
  have hread : ((visits (heapAct kernelBacking) (kmalloc 64) smallUnmapped.heap)[2]?.map fun x =>
      (x.2.address, x.1.env.pagingTranslate (heapStart + 12))) =
        some (some (heapStart + 12), pageUnmapped) := by
    decide +kernel
  obtain ⟨x, hx, hread⟩ := Option.map_eq_some_iff.1 hread
  obtain ⟨haddr, htrans⟩ := Prod.mk.inj hread
  exact hno x (List.mem_of_getElem? hx) _ haddr _ le_rfl (by decide) htrans

end JarvisOS
